import Rollout.BuildError
import Rollout.Text.Quoted
/-!
Why a build cannot be planned or applied. What befalls single documents while they
are applied is part of the report and no error.
-/

namespace Rollout

structure ApiFault where
  status : String := "Failure"
  message : String
  reason : String
  code : Nat
  deriving DecidableEq

def ApiFault.text (f : ApiFault) : String :=
  s!"ApiError: {f.message}: {f.reason} (ErrorResponse \x7b status: {Text.quoted f.status}" ++
    s!", message: {Text.quoted f.message}, reason: {Text.quoted f.reason}, code: {f.code} \x7d)"

inductive RequestFault where
  | noName
  | badCharacter
  deriving DecidableEq

def RequestFault.text : RequestFault → String
  | noName => "failed to validate request: A non-empty name is required"
  | badCharacter => "failed to build request: invalid uri character"

inductive ClusterError where
  | api (f : ApiFault)
  | request (f : RequestFault)
  | answer (message : String)
  /-- The cluster serves nothing of a group of resources. -/
  | emptyGroup (group : String)
  | build (e : BuildError)
  | declined
  | cancelled
  | applyFailed (failed total : Nat)
  | unknownResource (apiVersion kind : String)
  | serialization (message : String)
  | confirmation (message : String)
  deriving DecidableEq

namespace ClusterError

def message : ClusterError → String
  | api f => "Kubernetes API error: " ++ f.text
  | request f => "Kubernetes API error: Failed to build request: " ++ f.text
  | answer text => "Kubernetes API error: Error deserializing response: " ++ text
  | emptyGroup group => "Kubernetes API error: Error from discovery: Empty Api Group: " ++ group
  | build e => e.message
  | declined => "apply declined, no changes were made"
  | cancelled => "apply cancelled"
  | applyFailed failed total => s!"apply failed: {failed} of {total} documents did not apply"
  | unknownResource apiVersion kind => s!"unknown resource type {apiVersion}/{kind}" ++
      "\nHint: is the CustomResourceDefinition installed?"
  | serialization text => "serialization error: " ++ text
  | confirmation text => "confirmation failed: " ++ text

def hasCode (code : Nat) : ClusterError → Bool
  | api f => f.code == code
  | _ => false

def isNotFound (e : ClusterError) : Bool := e.hasCode 404

def isConflict (e : ClusterError) : Bool := e.hasCode 409

/-- Declined or cancelled, and not failed. -/
def isCancellation : ClusterError → Bool
  | declined | cancelled => true
  | _ => false

def build? : ClusterError → Option BuildError
  | build e => some e
  | _ => none

end ClusterError

end Rollout
