import Rollout.Command.Option
/-!
The help texts of the command line.
-/

namespace Rollout.Command

def programName : String := "kforge"

def programVersion : String := "0.1.0"

def programAbout : String :=
  "Compose Kubernetes manifests from components and apply them safely"

namespace OptionSpec

def valueName (o : OptionSpec) : String :=
  o.long.map fun c => if c = '-' then '_' else c.toUpper

def usage (o : OptionSpec) : String :=
  let short := match o.short with
    | some c => s!"  -{c}, "
    | none => "      "
  short ++ "--" ++ o.long ++ if o.value.isSome then s!" <{o.valueName}>" else ""

/-- What an option is for, with the other sources of its value. -/
def helpText (environment : String → Option String) (o : OptionSpec) : String :=
  let fromVariable := o.variableName?.map fun v => "[env: " ++ v ++ "=" ++ (environment v).getD "" ++ "]"
  let byDefault := o.default?.map fun v => s!"[default: {v}]"
  " ".intercalate (o.help :: fromVariable.toList ++ byDefault.toList)

/-- What options at the same place are sorted by. -/
def sortKey (o : OptionSpec) : String :=
  match o.short with
  | some c => s!"{c}0"
  | none => o.long

end OptionSpec

/-- Options side by side: those of a command and the global ones, place by place. -/
def interleave : List OptionSpec → List OptionSpec → List OptionSpec
  | [], bs => bs
  | as, [] => as
  | a :: as, b :: bs =>
    if a.sortKey < b.sortKey then a :: b :: interleave as bs else b :: a :: interleave as bs

def standardOptions : List OptionSpec :=
  [{ long := "help", short := some 'h', help := "Print help" },
    { long := "version", short := some 'V', help := "Print version" }]

/-- The widest that a line of help on an option may be. -/
def helpWidth : Nat := 90

/-- Breaks a text between words so that no line is wider than it must be. -/
def wrapped (width : Nat) (text : String) : List String :=
  let lines := ((Text.splitOn ' ' text.toList).foldl (fun (lines : List (List Char)) word =>
    match lines with
    | [] => [word]
    | line :: above =>
      if width < line.length + 1 + word.length then word :: line :: above
      else (line ++ ' ' :: word) :: above) []).reverse
  lines.map String.ofList

def optionLines (environment : String → Option String) (os : List OptionSpec) : List String :=
  "Options:" :: os.flatMap fun o =>
    o.usage :: (wrapped helpWidth (o.helpText environment)).map ("          " ++ ·)

def commandLines : List String :=
  "Commands:" :: Verb.all.map (fun v => "  " ++ (v.text ++ "     ").take 7 ++ v.about) ++
    ["  help   Print this message or the help of the given subcommand(s)"]

def helpText (environment : String → Option String) (verb : Option Verb) : String :=
  let lines := match verb with
    | none => [programAbout, "", s!"Usage: {programName} [OPTIONS] <COMMAND>", ""] ++ commandLines ++
        [""] ++ optionLines environment (globalOptions ++ standardOptions)
    | some v => [v.about, "", s!"Usage: {programName} {v.text} [OPTIONS]", ""] ++
        optionLines environment (interleave v.options globalOptions ++ standardOptions)
  String.join (lines.map (· ++ "\n"))

def helpOnHelp : String :=
  "Print this message or the help of the given subcommand(s)\n\n" ++
    s!"Usage: {programName} help [COMMAND]...\n\nArguments:\n" ++
    "  [COMMAND]...  Print help for the subcommand(s)\n"

def versionText (verb : Option Verb) : String :=
  let name := match verb with
    | none => programName
    | some v => programName ++ "-" ++ v.text
  s!"{name} {programVersion}\n"

end Rollout.Command
