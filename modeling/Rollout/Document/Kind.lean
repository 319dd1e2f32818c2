import Rollout.Document.Basic
/-!
Well-known kinds: which are not namespaced, and where a workload keeps the
specification of its pods.
-/

namespace Rollout

namespace Kind

/-- Built-in kinds without a namespace. -/
def clusterScoped : List String :=
  ["Namespace", "Node", "PersistentVolume", "StorageClass", "CSIDriver", "CSINode",
    "VolumeAttachment", "ClusterRole", "ClusterRoleBinding", "CustomResourceDefinition",
    "APIService", "PriorityClass", "RuntimeClass", "IngressClass",
    "MutatingWebhookConfiguration", "ValidatingWebhookConfiguration",
    "ValidatingAdmissionPolicy", "ValidatingAdmissionPolicyBinding",
    "CertificateSigningRequest", "FlowSchema", "PriorityLevelConfiguration"]

def isClusterScoped (kind : String) : Bool := clusterScoped.contains kind

def podSpecPath? (kind : String) : Option String :=
  if kind = "Pod" then some "spec"
  else if ["Deployment", "StatefulSet", "DaemonSet", "ReplicaSet", "Job"].contains kind then
    some "spec.template.spec"
  else if kind = "CronJob" then some "spec.jobTemplate.spec.template.spec"
  else none

end Kind

namespace Document

variable (d : Document)

def podSpec? : Option Value := (Kind.podSpecPath? d.kind).bind d.get?

/-- The containers of a workload, in order. -/
def containers : List Value := ((d.podSpec?.bind (·.field? "containers")).bind Value.items?).getD []

def serviceAccount? : Option String := d.podSpec?.bind (·.fieldText? "serviceAccountName")

end Document

end Rollout
