import Rollout.Command.Arguments
import Rollout.Command.Failure
import Rollout.Project
/-!
The command line: renders a project, or builds it for a cluster. Every error has an
exit code of its own.
-/

namespace Rollout.Command

/-- Why a command does not succeed. -/
inductive Error where
  | project (e : ProjectError)
  | build (e : BuildError)
  | write (f : FileFault)
  /-- No cluster can be reached. -/
  | noCluster

def Error.failure : Error → Failure
  | project (.build e) | build e => .ofBuildError e
  | project (.unreadable path f) => .config (ProjectError.unreadable path f).message
      (some s!"create a {Project.fileName} or pass --project")
  | project e => .config e.message none
  | write f => .io f.message
  | noCluster => .cluster "Kubernetes API error: no cluster is configured"
      (some "check KUBECONFIG or the current kubectl context")

/-- What is common to all commands. -/
structure ProjectChoice where
  path : String := Project.fileName
  ns : Option String := none
  overrides : ClusterOverrides := {}

structure Printed where
  stdout : String := ""
  stderr : String := ""

variable {m : Type → Type} [Monad m] [FileSystem m]

/-- Reads a project and gives it the chosen cluster and namespace. -/
def load (c : ProjectChoice) : ExceptT ProjectError m Project := do
  let p ← Project.load (m := m) c.path
  return { p with cluster := p.cluster.override c.overrides, ns := c.ns <|> p.ns }

def buildProject (c : ProjectChoice) : ExceptT Error m Build := do
  let p ← (load (m := m) c).adapt Error.project
  let b ← (p.builder (m := m)).adapt Error.project
  match b.build p.ns with
  | .ok build => return build
  | .error e => throw (.build e)

def render (c : ProjectChoice) (output : Option String) : ExceptT Error m Printed := do
  let build ← buildProject (m := m) c
  match output with
  | none => return { stdout := build.render }
  | some path => match ← FileSystem.write (m := m) path build.render with
    | .ok () => return { stderr := s!"✓ Wrote {build.size} documents to {path}\n" }
    | .error f => throw (.write f)

/-- Builds a project for a cluster, of which none can be reached. -/
def reconcile (c : ProjectChoice) : ExceptT Error m Printed := do
  let _ ← buildProject (m := m) c
  throw .noCluster

namespace Invocation

def value? (i : Invocation) (name : String) : Option String :=
  (Ordered.find? name i.values).map (·.1)

def choice (i : Invocation) : ProjectChoice where
  path := (i.value? "project").getD Project.fileName
  ns := i.value? "namespace"
  overrides :=
    { version := i.value? "cluster-version"
      distribution := i.value? "distribution"
      environment := (i.value? "environment").bind fun s => (Environment.parse s).toOption }

def run (i : Invocation) : ExceptT Error m Printed :=
  match i.verb with
  | .build => render i.choice (i.value? "output")
  | .diff | .apply => reconcile i.choice

end Invocation

structure Finished where
  exitCode : Nat := 0
  printed : Printed := {}

def usageExitCode : Nat := 2

def told (f : Failure) : String :=
  s!"Error: {f.code}\n\n  × {f.message}\n" ++
    match f.help? with
    | some help => s!"  help: {help}\n"
    | none => ""

def runProgram (environment : String → Option String) (args : List String) : m Finished := do
  match readArguments environment args with
  | .error (.shown text) => return { printed := { stdout := text } }
  | .error .usage => return { exitCode := usageExitCode
                              printed := { stderr := helpText environment none } }
  | .ok i => match ← i.run (m := m) with
    | .ok printed => return { printed := printed }
    | .error e => return { exitCode := e.failure.exitCode, printed := { stderr := told e.failure } }

end Rollout.Command
