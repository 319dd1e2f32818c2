import Rollout.Cluster.Context
/-!
The options of the command line: what they are called, which values they take and
where else a value may come from.
-/

namespace Rollout.Command

/-- What the value of an option must be. -/
inductive ValueKind where
  | text
  /-- Not empty. -/
  | path
  | environment
  | count
  deriving DecidableEq

/-- A number without a sign, or with a plus. -/
def count? (s : String) : Option Nat :=
  let digits := match s.toList with
    | '+' :: r => r
    | cs => cs
  if digits.isEmpty ∨ !digits.all Char.isDigit then none
  else
    let n := Nat.ofDigitChars 10 digits 0
    if n < Nat.pow 2 64 then some n else none

def ValueKind.accepts : ValueKind → String → Bool
  | text, _ => true
  | path, s => !s.isEmpty
  | environment, s => (Environment.parse s).toBool
  | count, s => (count? s).isSome

structure OptionSpec where
  long : String
  short : Option Char := none
  /-- A switch has no value. -/
  value : Option ValueKind := none
  /-- The variable of the environment that gives a value where the option does not. -/
  variableName? : Option String := none
  default? : Option String := none
  help : String
  deriving DecidableEq

/-- Options that may stand before and after the command. -/
def globalOptions : List OptionSpec :=
  [{ long := "debug", help := "Enable debug output" },
    { long := "cluster-version", value := some .text, variableName? := some "KFORGE_CLUSTER_VERSION"
      help := "Target cluster version (overrides the project file)" },
    { long := "distribution", value := some .text, variableName? := some "KFORGE_DISTRIBUTION"
      help := "Target distribution, e.g. kubernetes, k3s, openshift" },
    { long := "environment", value := some .environment, variableName? := some "KFORGE_ENVIRONMENT"
      help := "Environment: test, development, staging or production" }]

def projectOptions : List OptionSpec :=
  [{ long := "project", short := some 'p', value := some .path, variableName? := some "KFORGE_PROJECT"
     default? := some "kforge.yaml", help := "Project file" },
    { long := "namespace", short := some 'n', value := some .text
      help := "Namespace for namespaced documents that do not set one " ++
        "(overrides the project's namespace)" }]

inductive Verb where
  | build
  | diff
  | apply
  deriving DecidableEq

namespace Verb

def all : List Verb := [build, diff, apply]

def text : Verb → String
  | build => "build"
  | diff => "diff"
  | apply => "apply"

def named? (s : String) : Option Verb := all.find? (·.text = s)

def about : Verb → String
  | build => "Render the project's manifests"
  | diff => "Show what apply would change in the cluster"
  | apply => "Apply the project to the cluster"

/-- The options of a command, global ones left out. -/
def options : Verb → List OptionSpec
  | build => projectOptions ++
    [{ long := "output", short := some 'o', value := some .path
       help := "Write to a file instead of stdout" }]
  | diff => projectOptions ++
    [{ long := "prune-selector", value := some .text
       help := "Also show live objects matching this label selector that would be pruned" }]
  | apply => projectOptions ++
    [{ long := "yes", short := some 'y', help := "Skip the confirmation prompt" },
      { long := "prune-selector", value := some .text
        help := "Delete live objects matching this label selector that are not in the build" },
      { long := "concurrency", value := some .count, default? := some "4"
        help := "Maximum number of concurrent cluster operations" }]

end Verb

end Rollout.Command
