import Rollout.Api.Client
/-!
A server that knows its answers beforehand. It keeps a log of what it is asked.
-/

namespace Rollout

structure CannedServer where
  served : List ApiResource := []
  /-- Answers by method and path. -/
  answers : List (String × Response) := []
  log : List String := []

namespace CannedServer

/-- The answer to a request for which there is none. -/
def notFound (request : Request) : Response :=
  let body : Value := .mapping [("kind", .string "Status"), ("apiVersion", .string "v1"),
    ("status", .string "Failure"), ("message", .string (request.line ++ " not found")),
    ("reason", .string "NotFound"), ("code", .whole 404)]
  ⟨404, body.toJson⟩

def answer (s : CannedServer) (request : Request) : Response :=
  (s.answers.lookup request.line).getD (notFound request)

def logged (s : CannedServer) (entry : String) : CannedServer := { s with log := s.log ++ [entry] }

instance : ApiConnection (StateM CannedServer) where
  served := do
    modify (·.logged "discovery")
    return (← get).served
  send request := do
    modify (·.logged request.text)
    return (← get).answer request

end CannedServer

end Rollout
