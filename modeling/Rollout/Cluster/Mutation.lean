import Rollout.Cluster.ObjectRef
/-!
Calls that change an object of a cluster.
-/

namespace Rollout

/-- A call that changes an object. -/
inductive Mutation where
  | create (d : Document)
  | update (d : Document)
  | delete (r : ObjectRef)
  deriving DecidableEq

namespace Mutation

def key : Mutation → Key
  | create d | update d => d.key
  | delete r => r.key

/-- What the journal says of it. -/
def text : Mutation → String
  | create d => "create " ++ d.key.text
  | update d => "update " ++ d.key.text
  | delete r => "delete " ++ r.key.text

end Mutation

end Rollout
