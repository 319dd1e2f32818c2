import Rollout.Cluster.Error
/-!
How errors are told on the command line: a few causes, each with an exit code.
-/

namespace Rollout

inductive Failure where
  /-- The project or its components are wrong. -/
  | config (message : String) (help : Option String)
  | parse (message : String)
  | resolution (message : String)
  | io (message : String)
  | cluster (message : String) (help : Option String)
  | cancelled (message : String)
  | other (message : String)
  deriving DecidableEq

namespace Failure

def message : Failure → String
  | config m _ => "Configuration error: " ++ m
  | parse m => "Parse error: " ++ m
  | resolution m => "Resolution error: " ++ m
  | io m => "IO error: " ++ m
  | cluster m _ => "Cluster error: " ++ m
  | cancelled m | other m => m

/-- What may be done about it. -/
def help? : Failure → Option String
  | config _ help | cluster _ help => help
  | resolution _ => some ("remove one of the references (e.g. a kforge.io/depends-on annotation) " ++
      "to break the cycle")
  | _ => none

def name : Failure → String
  | config .. => "config"
  | parse _ => "parse"
  | resolution _ => "resolution"
  | io _ => "io"
  | cluster .. => "cluster"
  | cancelled _ => "cancelled"
  | other _ => "error"

def code (f : Failure) : String := "kforge::cli::" ++ f.name

def exitCode : Failure → Nat
  | config .. => 2
  | parse _ => 3
  | resolution _ => 4
  | io _ => 5
  | cluster .. => 6
  | cancelled _ => 130
  | other _ => 1

def ofBuildError (e : BuildError) : Failure :=
  match e.kind with
  | .configuration => config e.message none
  | .parse => parse e.message
  | .resolution => resolution e.message
  | .io => io e.message
  | .document | .component => other e.message

def ofClusterError (e : ClusterError) : Failure :=
  match e with
  | .build e => ofBuildError e
  | .declined | .cancelled => cancelled e.message
  | .api _ | .request _ | .answer _ | .emptyGroup _ =>
    cluster e.message (some "check KUBECONFIG or the current kubectl context")
  | e => cluster e.message none

end Failure

end Rollout
