import Rollout.Command.Help
/-!
Reading the arguments of the command line. Options stand before or after the command;
one that is given twice, or lacks its value, or has a value it does not take, is an
error. A request for help or for the version ends the reading.
-/

namespace Rollout.Command

inductive Stop where
  | usage
  | shown (text : String)
  deriving DecidableEq

/-- Where a value comes from, weakest first. -/
inductive Source where
  | default
  | environment
  | argument
  deriving DecidableEq

def Source.rank : Source → Nat
  | default => 0
  | environment => 1
  | argument => 2

/-- The values of options by their names; a switch has an empty one. -/
abbrev Values := Ordered String (String × Source)

/-- The reading of the options of one level: the program's, or a command's. -/
structure Level where
  verb : Option Verb
  options : List OptionSpec
  values : Values := []
  /-- A value given in an argument of its own. It is checked when the next option comes. -/
  waiting : Option (OptionSpec × String) := none

namespace Level

def add (l : Level) (o : OptionSpec) (v : String) : Except Stop Level :=
  if Ordered.has o.long l.values then .error .usage
  else if o.value.all (·.accepts v) then
    .ok { l with values := Ordered.put o.long (v, .argument) l.values }
  else .error .usage

def settle (l : Level) : Except Stop Level :=
  match l.waiting with
  | none => .ok l
  | some (o, v) => add { l with waiting := none } o v

/-- Gives values to the options without one. -/
def complete (environment : String → Option String) (l : Level) : Except Stop Level := do
  l.options.foldlM (fun (l : Level) o =>
    if Ordered.has o.long l.values then return l
    else match o.variableName?.bind environment, o.default? with
      | some v, _ =>
        if o.value.all (·.accepts v) then
          return { l with values := l.values ++ [(o.long, (v, .environment))] }
        else throw .usage
      | none, some v => return { l with values := l.values ++ [(o.long, (v, .default))] }
      | none, none => return l) (← l.settle)

def ofProgram : Level := { verb := none, options := globalOptions }

def ofVerb (v : Verb) : Level := { verb := some v, options := v.options ++ globalOptions }

def long? (l : Level) (name : String) : Option OptionSpec :=
  (l.options ++ standardOptions).find? (·.long = name)

def short? (l : Level) (c : Char) : Option OptionSpec :=
  (l.options ++ standardOptions).find? (·.short = some c)

end Level

/-- Whether an argument looks like an option and so is no value of one. -/
def isOption (arg : String) : Bool := arg.toList.head? = some '-' && arg ≠ "-"

/-- Takes a switch. Those for help and for the version stop. -/
def takeSwitch (environment : String → Option String) (l : Level) (o : OptionSpec) :
    Except Stop Level := do
  let l ← l.settle
  if o.long = "help" then throw (.shown (helpText environment l.verb))
  else if o.long = "version" then throw (.shown (versionText l.verb))
  else l.add o ""

/-- Takes an option whose value is the next argument. -/
def takeNext (l : Level) (o : OptionSpec) : List String → Except Stop (Level × Nat)
  | v :: _ => do
    if isOption v then throw .usage
    return ({ (← l.settle) with waiting := some (o, v) }, 1)
  | [] => .error .usage

/-- Takes short options that share an argument; also the number of arguments after it that
are used up. -/
def takeShort (environment : String → Option String) (next : List String) (l : Level) :
    List Char → Except Stop (Level × Nat)
  | [] => .ok (l, 0)
  | c :: cs => do
    match l.short? c with
    | none => throw .usage
    | some o =>
      if o.value.isNone then takeShort environment next (← takeSwitch environment l o) cs
      else match cs with
        | [] => takeNext l o next
        | '=' :: v | v => return (← (← l.settle).add o (String.ofList v), 0)

def takeLong (environment : String → Option String) (next : List String) (l : Level)
    (body : List Char) : Except Stop (Level × Nat) := do
  let name := body.takeWhile (· ≠ '=')
  match l.long? (String.ofList name), body.drop name.length with
  | none, _ => throw .usage
  | some o, [] =>
    if o.value.isNone then return (← takeSwitch environment l o, 0)
    else takeNext l o next
  | some o, _ :: v =>
    if o.value.isNone then throw .usage
    else return (← (← l.settle).add o (String.ofList v), 0)

/-- Reads the options of a level up to something else, which is left. -/
def readLevel (environment : String → Option String) : Nat → Level → List String →
    Except Stop (Level × List String)
  | 0, l, args => .ok (l, args)
  | _, l, [] => .ok (l, [])
  | fuel + 1, l, arg :: args =>
    match arg.toList with
    | ['-', '-'] => if args.isEmpty then .ok (l, []) else .error .usage
    | '-' :: '-' :: body => do
      let (l, used) ← takeLong environment args l body
      readLevel environment fuel l (args.drop used)
    | '-' :: c :: body => do
      let (l, used) ← takeShort environment args l (c :: body)
      readLevel environment fuel l (args.drop used)
    | _ => .ok (l, arg :: args)

/-- The help asked for by words. -/
def helpOn (environment : String → Option String) : List String → Stop
  | [] => .shown (helpText environment none)
  | ["help"] => .shown helpOnHelp
  | [name] => match Verb.named? name with
    | some v => .shown (helpText environment (some v))
    | none => .usage
  | _ => .usage

structure Invocation where
  verb : Verb
  values : Values

/-- Of two values of a global option the one from the stronger source, else the inner. -/
def stronger (outer inner : Option (String × Source)) : Option (String × Source) :=
  match outer, inner with
  | some o, some i => if i.2.rank < o.2.rank then some o else some i
  | o, none => o
  | none, i => i

def withGlobals (outer inner : Values) : Values :=
  globalOptions.foldl (fun (vs : Values) o =>
    match stronger (Ordered.find? o.long outer) (Ordered.find? o.long vs) with
    | some v => Ordered.put o.long v vs
    | none => vs) inner

def readArguments (environment : String → Option String) (args : List String) :
    Except Stop Invocation := do
  let fuel := args.length + 1
  let (program, rest) ← readLevel environment fuel .ofProgram args
  match rest with
  | [] => throw .usage
  | name :: rest =>
    if name = "help" then throw (helpOn environment rest)
    match Verb.named? name with
    | none => throw .usage
    | some v =>
      let (level, rest) ← readLevel environment fuel (.ofVerb v) rest
      if !rest.isEmpty then throw .usage
      let level ← level.complete environment
      let program ← program.complete environment
      return { verb := v, values := withGlobals program.values level.values }

end Rollout.Command
