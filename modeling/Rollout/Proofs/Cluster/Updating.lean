import Mathlib.Logic.Function.Basic
import Rollout.Proofs.Cluster.Writing
import Rollout.Proofs.Document.Editing
import Rollout.Proofs.Path.Lookup
/-!
Updates of an object. The document is merged into it, so that seen through the document nothing
is left to change, and what the document does not set stays.
-/

namespace Rollout

namespace Path

/-- A path that enters no sequence. -/
def OfKeys (q : Path) : Prop := ∀ s ∈ q, ∃ k, s = .key k

variable {q : Path} {v p c : Value}

/-- Below keys only, trees are merged as they are as a whole. -/
theorem get?_merge (hq : q.OfKeys) (hp : p.WellKeyed) (h : get? q p = some c) (v : Value) :
    get? q (v.merge p) = Value.patched (get? q v) (some c) := by
  induction q generalizing v p with
  | nil =>
      cases h
      rfl
  | cons s q ih =>
      obtain ⟨⟨k, rfl⟩, hrest⟩ := List.forall_mem_cons.mp hq
      obtain ⟨w, hw, hc⟩ := Option.bind_eq_some_iff.mp h
      have hfield : child? (.key k) (v.merge p) = Value.patched (child? (.key k) v) (some w) :=
        Value.field?_merge v hp hw
      rw [get?, get?, hfield]
      cases child? (.key k) v with
      | none => exact hc
      | some x => exact ih hrest (hp.field? hw) hc x

/-- What the patch has inside sequences, and what is no mapping, is there as it is. -/
theorem get?_merge_of_replaced (hp : p.WellKeyed) (h : get? q p = some c)
    (hc : c.fields? = none ∨ ¬ q.OfKeys) (v : Value) : get? q (v.merge p) = some c := by
  induction q generalizing v p with
  | nil =>
      cases h
      rcases hc with hc | hc
      · exact congrArg some (Value.merge_of_fields?_eq_none v hc)
      · exact absurd (List.forall_mem_nil _) hc
  | cons s q ih =>
      obtain ⟨w, hw, hbelow⟩ := Option.bind_eq_some_iff.mp h
      cases s with
      | key k =>
          have hfield : child? (.key k) (v.merge p) = Value.patched (child? (.key k) v) (some w) :=
            Value.field?_merge v hp hw
          rw [get?, hfield]
          cases child? (.key k) v with
          | none => exact hbelow
          | some x =>
              refine ih (hp.field? hw) hbelow (hc.imp_right fun hkeys hq => hkeys ?_) x
              exact List.forall_mem_cons.mpr ⟨⟨k, rfl⟩, hq⟩
      | index i =>
          cases p with
          | sequence ps => rwa [Value.merge_of_fields?_eq_none v rfl]
          | _ => cases hw

end Path

namespace Value

/-- What a patch makes of a tree. -/
structure Patched (v p merged : Value) : Prop where
  /-- Seen through the patch, it is the patch. -/
  seen : merged.project p = p
  stable : merged.merge p = merged
  /-- Where both have mappings, fields that the patch does not have stay, in their order. -/
  kept : ∀ q : Path, q.OfKeys → ∀ fs ps, Path.get? q v = some (.mapping fs) →
    Path.get? q p = some (.mapping ps) → ∃ ms, Path.get? q merged = some (.mapping ms) ∧
      ms.filter (·.1 ∉ Ordered.keys ps) = fs.filter (·.1 ∉ Ordered.keys ps)
  /-- Inside sequences, and where it has no mapping, the patch is taken as it is. -/
  replaced : ∀ q c, Path.get? q p = some c → c.fields? = none ∨ ¬ Path.OfKeys q →
    Path.get? q merged = some c

theorem patched_merge (v : Value) {p : Value} (hp : p.WellKeyed) : Patched v p (v.merge p) where
  seen := covers_merge p hp v
  stable := merge_merge p hp v
  kept q hq fs ps hfs hps := by
    refine ⟨mergeFields fs ps, ?_, filter_mergeFields (fun e he => of_decide_eq_true he) fs⟩
    rw [Path.get?_merge hq hp hps, hfs, patched, merge]
  replaced q c h hc := Path.get?_merge_of_replaced hp h hc v

theorem field?_merge_of_text (v : Value) {p : Value} (hp : p.WellKeyed) {k s : String}
    (h : p.field? k = some (.string s)) : (v.merge p).field? k = some (.string s) := by
  rw [field?_merge v hp h]
  cases v.field? k with
  | none => rfl
  | some x => exact congrArg some (merge_of_fields?_eq_none x rfl)

end Value

namespace Document

variable {v p : Value} {apiVersion kind apiVersion' kind' : String}

theorem Named.merge (hv : Named v) (hp : Named p) (hwell : p.WellKeyed) : Named (v.merge p) := by
  obtain ⟨fs, -, rfl, -, -, hns⟩ := hv
  obtain ⟨ps, name, rfl, hname, hne, hns'⟩ := hp
  have hmerge : (Value.mapping fs).merge (.mapping ps) = .mapping (Value.mergeFields fs ps) := by
    rw [Value.merge]
  have hfield (k : String) : Ordered.find? k (Value.mergeFields fs ps) =
      ((Value.mapping fs).merge (.mapping ps)).field? k := by
    rw [hmerge]
    rfl
  refine ⟨Value.mergeFields fs ps, name, hmerge, ?_, hne, fun ns h => ?_⟩
  · rw [hfield]
    exact Value.field?_merge_of_text _ hwell hname
  · rw [hfield] at h
    rcases Value.field?_merge_cases (.mapping fs) hwell "namespace" with
      heq | ⟨-, heq⟩ | ⟨x, q, -, hq, heq⟩
    · exact hns' ns (heq.symm.trans h)
    · exact hns ns (heq.symm.trans h)
    · obtain rfl := Option.some.inj (heq.symm.trans h)
      rcases hns' q hq with rfl | ⟨s, rfl⟩
      · exact .inl (Value.merge_of_fields?_eq_none x rfl)
      · exact .inr ⟨s, Value.merge_of_fields?_eq_none x rfl⟩

/-- What is accepted stays so under a patch that is. -/
theorem Identified.merge (hv : Identified apiVersion kind v)
    (hp : Identified apiVersion' kind' p) (hwell : p.WellKeyed) :
    Identified apiVersion' kind' (v.merge p) where
  isMapping := by
    obtain ⟨fs, rfl⟩ := Value.eq_mapping_of_isMapping hv.isMapping
    obtain ⟨ps, rfl⟩ := Value.eq_mapping_of_isMapping hp.isMapping
    rw [Value.merge]
    rfl
  apiVersion_eq := Value.field?_merge_of_text v hwell hp.apiVersion_eq
  apiVersion_ne := hp.apiVersion_ne
  kind_eq := Value.field?_merge_of_text v hwell hp.kind_eq
  kind_ne := hp.kind_ne
  metadata_eq := by
    obtain ⟨m, hm, hnamed⟩ := hv.metadata_eq
    obtain ⟨m', hm', hnamed'⟩ := hp.metadata_eq
    refine ⟨m.merge m', ?_, hnamed.merge hnamed' (hwell.field? hm')⟩
    rw [Value.field?_merge v hwell hm', hm]
    rfl

end Document

namespace MemoryCluster

variable {c : MemoryCluster} {d live made : Document}

/-- What an update that succeeds comes to: the document is merged into the object, no other object
changes, and doing it again changes nothing. -/
structure Updates (c : MemoryCluster) (d live made : Document) (c' : MemoryCluster) : Prop where
  found : c.find? d.key = some live
  find?_eq : c'.find? = Function.update c.find? d.key (some made)
  root_eq : made.root = live.root.merge d.root
  patched : Value.Patched live.root d.root made.root
  again : (c'.call (.update d)).1 = .ok () ∧ (c'.call (.update d)).2.objects = c'.objects

theorem call_update (hrefused : Ordered.find? d.key c.refused = none)
    (hlive : c.find? d.key = some live) (hmade : merged live d = .ok made) :
    (c.call (.update d)).1 = .ok () ∧
      (c.call (.update d)).2.objects = Ordered.put d.key made c.objects ∧
      (c.call (.update d)).2.refused = c.refused := by
  have hchange : change c.objects (.update d) = .ok (Ordered.put d.key made c.objects) := by
    have hfind : Ordered.find? d.key c.objects = some live := hlive
    rw [change, hfind]
    dsimp only
    rw [hmade]
  have hcall : c.call (.update d) = (.ok (), { c.begin (.update d) with
      running := (c.begin (.update d)).running - 1
      objects := Ordered.put d.key made c.objects
      journal := c.journal ++ [.update d] }) := by
    have hkey : Ordered.find? (Mutation.update d).key c.refused = none := hrefused
    rw [call, finish]
    dsimp only [begin]
    rw [hkey, hchange]
  rw [hcall]
  exact ⟨rfl, rfl, rfl⟩

/-- An update fails where it is refused, where there is no object, and where the merged tree is not
accepted. -/
theorem call_update_eq_ok_iff : (c.call (.update d)).1 = .ok () ↔
    Ordered.find? d.key c.refused = none ∧
      ∃ live made, c.find? d.key = some live ∧ merged live d = .ok made := by
  constructor
  · intro h
    rw [call, finish] at h
    dsimp only [begin] at h
    cases hrefused : Ordered.find? d.key c.refused with
    | some message =>
        have hkey : Ordered.find? (Mutation.update d).key c.refused = some message := hrefused
        rw [hkey] at h
        cases h
    | none =>
        have hkey : Ordered.find? (Mutation.update d).key c.refused = none := hrefused
        rw [hkey] at h
        refine ⟨rfl, ?_⟩
        cases hlive : c.find? d.key with
        | none =>
            have hfind : Ordered.find? d.key c.objects = none := hlive
            rw [change, hfind] at h
            cases h
        | some live =>
            have hfind : Ordered.find? d.key c.objects = some live := hlive
            rw [change, hfind] at h
            dsimp only at h
            cases hmade : merged live d with
            | ok made => exact ⟨live, made, rfl, hmade⟩
            | error f =>
                rw [hmade] at h
                cases h
  · rintro ⟨hrefused, live, made, hlive, hmade⟩
    exact (call_update hrefused hlive hmade).1

theorem merged_of_merged (h : merged live d = .ok made) : merged made d = .ok made := by
  have hroot := root_of_merged h
  have hagain : made.root.merge d.root = live.root.merge d.root := by
    rw [hroot, Value.merge_merge d.root d.wellKeyed]
  rw [← h, merged, merged]
  congr 1
  exact Subtype.ext hagain

theorem updates_of_call (h : (c.call (.update d)).1 = .ok ()) :
    ∃ live made, Updates c d live made (c.call (.update d)).2 := by
  obtain ⟨hrefused, live, made, hlive, hmade⟩ := call_update_eq_ok_iff.mp h
  obtain ⟨-, hobjects, hstill⟩ := call_update hrefused hlive hmade
  have hfind : (c.call (.update d)).2.find? = Function.update c.find? d.key (some made) := by
    rw [← c.find?_put_eq d.key made, ← hobjects]
    rfl
  have hfound : (c.call (.update d)).2.find? d.key = some made := by
    rw [hfind, Function.update_self]
  obtain ⟨hok, hput, -⟩ := call_update (hstill ▸ hrefused) hfound (merged_of_merged hmade)
  have hsame : Ordered.put d.key made (c.call (.update d)).2.objects =
      (c.call (.update d)).2.objects := Ordered.put_eq_self hfound
  refine ⟨live, made, hlive, hfind, root_of_merged hmade, ?_, hok, hput.trans hsame⟩
  rw [root_of_merged hmade]
  exact Value.patched_merge live.root d.wellKeyed

theorem exists_merged (hlive : ∃ apiVersion kind, Document.Identified apiVersion kind live.root)
    (hd : ∃ apiVersion kind, Document.Identified apiVersion kind d.root) :
    ∃ made, merged live d = .ok made := by
  obtain ⟨_, _, hlive⟩ := hlive
  obtain ⟨apiVersion, kind, hd⟩ := hd
  exact ⟨_, Document.ofTree_eq_ok_iff.mpr
    ⟨⟨apiVersion, kind, hlive.merge hd d.wellKeyed⟩, rfl⟩⟩

/-- Merging makes the patch visible, once and for all, and keeps what it does not have. Every update
that succeeds does so to its object; it succeeds for accepted documents where changes of an object
that exists are not refused. -/
theorem patched_update (t p : Tree) (c : MemoryCluster) (d : Document) :
    Value.Patched t.1 p.1 (t.1.merge p.1) ∧
      ((c.call (.update d)).1 = .ok () →
        ∃ live made, Updates c d live made (c.call (.update d)).2) ∧
      ∀ live, c.find? d.key = some live → Ordered.find? d.key c.refused = none →
        (∃ apiVersion kind, Document.Identified apiVersion kind live.root) →
        (∃ apiVersion kind, Document.Identified apiVersion kind d.root) →
        (c.call (.update d)).1 = .ok () := by
  refine ⟨Value.patched_merge t.1 p.2, updates_of_call, ?_⟩
  intro live hfound hrefused hlive hd
  obtain ⟨made, hmade⟩ := exists_merged hlive hd
  exact (call_update hrefused hfound hmade).1

/-- A pod with the given specification. -/
def podWith (spec : Tree) : Document where
  root := .mapping [("apiVersion", .string "v1"), ("kind", .string "Pod"),
    ("metadata", .mapping [("name", .string "web")]), ("spec", spec.1)]
  wellKeyed := by simp [Ordered.keys, spec.2]

theorem identified_podWith (spec : Tree) : Document.Identified "v1" "Pod" (podWith spec).root :=
  ⟨rfl, rfl, by decide, rfl, by decide, _, rfl, _, "web", rfl, rfl, by decide, nofun⟩

def placedSpec : Tree := .ofEntries [("nodeName", .string "north"), ("hostname", .string "web-0")]

def renamedSpec : Tree := .ofEntries [("hostname", .string "web-1")]

/-- Where a pod was placed stays when it gets another host name. -/
theorem patched_update_web :
    ∃ live made, Updates (ofDocuments [podWith placedSpec]) (podWith renamedSpec) live made
        ((ofDocuments [podWith placedSpec]).call (.update (podWith renamedSpec))).2 ∧
      made.root.field? "spec" =
        some (.mapping [("nodeName", .string "north"), ("hostname", .string "web-1")]) := by
  obtain ⟨-, hupdates, hok⟩ := patched_update placedSpec renamedSpec
    (ofDocuments [podWith placedSpec]) (podWith renamedSpec)
  have hcall := hok (podWith placedSpec) rfl rfl ⟨_, _, identified_podWith _⟩
    ⟨_, _, identified_podWith _⟩
  obtain ⟨live, made, h⟩ := hupdates hcall
  refine ⟨live, made, h, ?_⟩
  obtain rfl := Option.some.inj (h.found.symm.trans rfl)
  rw [h.root_eq]
  rfl

/-- Sequences are replaced as a whole: what only the items of the old one have is lost. -/
theorem not_forall_kept :
    ¬ ∀ (t p : Tree) (q : Path) (fs ps : Fields), Path.get? q t.1 = some (.mapping fs) →
      Path.get? q p.1 = some (.mapping ps) →
      ∃ ms, Path.get? q (t.1.merge p.1) = some (.mapping ms) ∧
        ms.filter (·.1 ∉ Ordered.keys ps) = fs.filter (·.1 ∉ Ordered.keys ps) := by
  intro h
  have hitem := h (.sequence [.ofEntries [("name", .string "app"), ("image", .string "shop")]])
    (.sequence [.ofEntries [("name", .string "app")]]) [.index 0] _ _ rfl rfl
  obtain ⟨ms, hms, hkept⟩ := hitem
  rw [Value.merge_of_fields?_eq_none _ rfl] at hms
  cases hms
  exact absurd hkept (by decide)

end MemoryCluster

end Rollout
