import Rollout.Cluster.Version
import Rollout.Manifest
import Rollout.Yaml.Record
/-!
The cluster that manifests are made for. Components choose variants by it.
-/

namespace Rollout

inductive Environment where
  | test
  | development
  | staging
  | production
  deriving DecidableEq

namespace Environment

def text : Environment → String
  | test => "test"
  | development => "development"
  | staging => "staging"
  | production => "production"

def all : List Environment := [test, development, staging, production]

/-- The environment with exactly this name. -/
def named? (s : String) : Option Environment := all.find? fun e => e.text = s

/-- Names are read in any case, and may be short; the name in lower case is the error. -/
def parse (s : String) : Except String Environment :=
  let lower := s.map Char.toLower
  if lower = "dev" then .ok development
  else if lower = "prod" then .ok production
  else match named? lower with
    | some e => .ok e
    | none => .error lower

def unknownMessage (name : String) : String :=
  s!"unknown environment '{name}' (expected test, development, staging or production)"

end Environment

structure ClusterContext where
  clusterVersion : String := "1.31"
  distribution : String := "kubernetes"
  environment : Environment := .development
  deriving DecidableEq

namespace ClusterContext

def version? (c : ClusterContext) : Option Version := Version.parse? c.clusterVersion

def atLeast (c : ClusterContext) (major minor : Nat) : Bool :=
  match c.version? with
  | some v => major < v.major || (v.major == major && minor ≤ v.minor)
  | none => false

def isProduction (c : ClusterContext) : Bool := c.environment == .production

def toValue (c : ClusterContext) : Value :=
  .mapping [("clusterVersion", .string c.clusterVersion), ("distribution", .string c.distribution),
    ("environment", .string c.environment.text)]

/-- The fields of a cluster; missing ones have their defaults. -/
def ofNode (d : Yaml.Parsed) (strict : Bool) (node : Yaml.Node) :
    Yaml.RecordReader ClusterContext := do
  let fields ← Yaml.recordNode d ["clusterVersion", "distribution", "environment"] strict node
  fields.foldlM (fun c (k, v) => do
    if k = "clusterVersion" then return { c with clusterVersion := ← Yaml.textNode d v }
    else if k = "distribution" then return { c with distribution := ← Yaml.textNode d v }
    else return { c with environment := ← Yaml.variantNode d Environment.named? v }) {}

/-- Reads a cluster; fields it does not have are left out. -/
def ofYaml (text : String) : Except BuildError ClusterContext :=
  (Yaml.readRecord text fun d => ofNode d false).mapError fun f =>
    .parse 0 (Manifest.fragment text.toList) (.record f)

end ClusterContext

end Rollout
