import Rollout.Document.Basic
/-!
Categories of resources. Among documents that do not depend on each other, those
of a lower rank are applied first, so that what workloads need exists before them.
-/

namespace Rollout

inductive Category where
  | crd
  | ns
  | namespaceConfig
  | clusterRbac
  | namespacedRbac
  | config
  | storage
  | network
  | workload
  | batch
  | autoscaling
  | customResource
  | other
  deriving DecidableEq

namespace Category

def rank : Category → Nat
  | crd => 0
  | ns => 1
  | namespaceConfig => 2
  | clusterRbac => 10
  | namespacedRbac => 11
  | config => 20
  | storage => 21
  | network => 30
  | workload => 40
  | batch => 50
  | autoscaling => 60
  | customResource => 70
  | other => 100

def name : Category → String
  | crd => "Crd"
  | ns => "Namespace"
  | namespaceConfig => "NamespaceConfig"
  | clusterRbac => "ClusterRbac"
  | namespacedRbac => "NamespacedRbac"
  | config => "Config"
  | storage => "Storage"
  | network => "Network"
  | workload => "Workload"
  | batch => "Batch"
  | autoscaling => "Autoscaling"
  | customResource => "CustomResource"
  | other => "Other"

/-- Groups of the cluster's own interface. -/
def builtInGroups : List String :=
  ["", "apps", "batch", "autoscaling", "policy", "networking.k8s.io",
    "rbac.authorization.k8s.io", "storage.k8s.io", "admissionregistration.k8s.io",
    "apiextensions.k8s.io", "apiregistration.k8s.io", "certificates.k8s.io",
    "coordination.k8s.io", "discovery.k8s.io", "events.k8s.io", "flowcontrol.apiserver.k8s.io",
    "node.k8s.io", "scheduling.k8s.io"]

def isCustom (apiVersion : String) : Bool := !builtInGroups.contains (splitApiVersion apiVersion).1

/-- The built-in kinds of each category. -/
def kinds : List (Category × List String) :=
  [(crd, ["CustomResourceDefinition"]),
    (ns, ["Namespace"]),
    (namespaceConfig, ["ResourceQuota", "LimitRange"]),
    (clusterRbac, ["ClusterRole", "ClusterRoleBinding"]),
    (namespacedRbac, ["Role", "RoleBinding", "ServiceAccount"]),
    (config, ["ConfigMap", "Secret"]),
    (storage, ["PersistentVolume", "PersistentVolumeClaim", "StorageClass"]),
    (network, ["NetworkPolicy", "Service", "Endpoints", "Ingress", "IngressClass"]),
    (workload, ["Deployment", "StatefulSet", "DaemonSet", "ReplicaSet", "Pod"]),
    (batch, ["Job", "CronJob"]),
    (autoscaling, ["HorizontalPodAutoscaler", "VerticalPodAutoscaler", "PodDisruptionBudget"])]

/-- The category is known by the kind; other kinds are told apart by their group. -/
def ofResource (kind apiVersion : String) : Category :=
  match kinds.find? fun e => e.2.contains kind with
  | some (c, _) => c
  | none => if isCustom apiVersion then customResource else other

end Category

def Document.category (d : Document) : Category := Category.ofResource d.kind d.apiVersion

end Rollout
