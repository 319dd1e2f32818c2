import Rollout.Api.Request
import Rollout.Api.Resource
import Rollout.Api.TypedObject
import Rollout.Cluster.ObjectRef
import Rollout.Json.Writer
/-!
A client of a server. It finds the path of an object in the catalog of the server, which
it reads again when it does not know a type.
-/

namespace Rollout

/-- A monad in which a server can be reached. -/
class ApiConnection (m : Type → Type) where
  served : m (List ApiResource)
  send : Request → m Response

abbrev Client (m : Type → Type) := ExceptT ClusterError (StateT Catalog m)

namespace Client

/-- The name under which the client owns fields of objects. -/
def fieldManager : String := "kforge"

variable {m : Type → Type} [Monad m] [ApiConnection m]

def connect : ExceptT ClusterError m Catalog := do
  match Catalog.ofServed (← ApiConnection.served (m := m)) with
  | .ok catalog => return catalog
  | .error group => throw (.emptyGroup group)

def refresh : Client m Unit := do
  match Catalog.ofServed (← ApiConnection.served (m := m)) with
  | .ok catalog => set catalog
  | .error group => throw (.emptyGroup group)

def resolve (apiVersion kind : String) : Client m ApiResource := do
  match (← get).resolve? apiVersion kind with
  | some r => return r
  | none =>
    refresh
    match (← get).resolve? apiVersion kind with
    | some r => return r
    | none => throw (.unknownResource apiVersion kind)

def collection (r : ObjectRef) : Client m (ApiResource × String) := do
  let resource ← resolve (m := m) r.apiVersion r.kind
  let ns := if resource.namespaced then some (r.ns.getD defaultNamespace) else none
  return (resource, resource.path ns)

/-- Sends a request; the body of an answer that is no failure. -/
def send (request : Request) : Client m Tree := do
  if !request.isValid then throw (.request .badCharacter)
  let response ← ApiConnection.send (m := m) request
  if response.isFailure then throw (.api response.fault)
  match Tree.ofJson? response.body with
  | some body => return body
  | none => throw (.answer "it is not JSON")

def objectPath (collection name : String) : Client m String := do
  if name.isEmpty then throw (.request .noName)
  return collection ++ "/" ++ name

def readObject (t : Tree) : Client m TypedObject :=
  match TypedObject.ofTree? t with
  | some o => return o
  | none => throw (.answer "it is no object")

def bodyOf (d : Document) : Client m String :=
  match TypedObject.ofTree? d.tree with
  | some o => return o.toTree.1.toJson
  | none => throw (.serialization "the metadata of the document do not have their types")

def readDocument (r : ApiResource) (o : TypedObject) : Client m Document :=
  match o.toDocument r.apiVersion r.kind with
  | .ok d => return d
  | .error f => throw (.serialization (BuildError.invalidDocument f).message)

/-- The object as it lives, or none. -/
def get (r : ObjectRef) : Client m (Option Document) := do
  let (resource, path) ← collection (m := m) r
  try
    let body ← send (m := m) { method := .get, target := ← objectPath (m := m) path r.name }
    some <$> readDocument resource (← readObject body)
  catch
    | .api f => if f.reason = "NotFound" then return none else throw (.api f)
    | e => throw e

def create (d : Document) : Client m Unit := do
  let (_, path) ← collection (m := m) d.ref
  let body ← bodyOf (m := m) d
  let target := path ++ Request.query [("fieldManager", fieldManager)]
  let _ ← readObject (m := m) (← send (m := m) { method := .post, target := target, body := body })

/-- Takes ownership of the fields of a document, also of those that others own. -/
def update (d : Document) : Client m Unit := do
  let (_, path) ← collection (m := m) d.ref
  let body ← bodyOf (m := m) d
  let target := (← objectPath (m := m) path d.name) ++
    Request.query [("force", "true"), ("fieldManager", fieldManager)]
  let _ ← readObject (m := m) (← send (m := m) { method := .patch, target := target, body := body })

/-- What a server is told on deleting: objects that belong to the object go afterwards. -/
def deleteOptions : Value := .mapping [("propagationPolicy", .string "Background")]

/-- Whether the answer to deleting is a status that can be read. -/
def isStatus (v : Value) : Bool :=
  let isText := fun (k : String) => (v.field? k).all fun x => x.text?.isSome
  let summary := match v.field? "status" with
    | none | some .null => true
    | some s => s.text?.any fun s => s = "Success" || s = "Failure"
  v.fieldText? "kind" = some "Status" && summary && isText "message" && isText "reason"

/-- Deletes an object. One that is not there is no error. -/
def delete (r : ObjectRef) : Client m Unit := do
  let (_, path) ← collection (m := m) r
  let request : Request :=
    { method := .delete, target := (← objectPath (m := m) path r.name) ++ Request.query []
      body := deleteOptions.toJson }
  try
    let body ← send (m := m) request
    if !isStatus body.1 then let _ ← readObject (m := m) body
  catch
    | .api f => if f.code = 404 then return () else throw (.api f)
    | e => throw e

def listed (r : ApiResource) (body : Tree) : Client m (List Document) := do
  match (body.field? "items").bind Tree.items? with
  | some items =>
    let objects ← items.mapM readObject
    objects.mapM (readDocument r)
  | none => throw (.answer "it is no list")

/-- The objects of one resource that match a selector. Those that may not be listed count as
none. -/
def listResource (selector : String) (r : ApiResource) : Client m (List Document) := do
  let target := r.path none ++ Request.query [("labelSelector", selector)]
  try
    listed r (← send (m := m) { method := .get, target := target })
  catch
    | .api f => if f.code = 403 ∨ f.code = 405 then return [] else throw (.api f)
    | e => throw e

def list (selector : String) : Client m (List Document) := do
  let resources := (← getThe Catalog).preferred.filter ApiResource.canList
  let documents ← resources.mapM (listResource selector)
  return documents.flatten.mergeSort fun a b => Key.le a.key b.key

end Client

end Rollout
