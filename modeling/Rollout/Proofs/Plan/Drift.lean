import Rollout.Plan.Change
import Rollout.Proofs.Value.Pruning
/-!
An object that is planned to stay as it is has what its document sets. What the record of
the last application holds can only add to what is compared.
-/

namespace Rollout

theorem wellKeyed_comparedFields (desired live : Document) :
    (comparedFields desired live).WellKeyed := by
  unfold comparedFields
  split
  · next previous h =>
      obtain ⟨text, -, ht⟩ := Option.bind_eq_some_iff.mp h
      exact Value.wellKeyed_withFieldsOf previous desired.wellKeyed (Value.wellKeyed_ofJson? ht)
  · exact desired.wellKeyed

theorem action_planChange (desired live : Document) (context : Nat) :
    (planChange desired (some live) context).action =
      if (seen desired live).same desired.root.canonical then .unchanged else .update := by
  unfold planChange
  dsimp only
  split <;> rfl

theorem unchanged_iff_same_seen (desired live : Document) (context : Nat) :
    (planChange desired (some live) context).action = .unchanged ↔
      (seen desired live).same desired.root.canonical := by
  rw [action_planChange]
  split
  · next h => exact iff_of_true rfl h
  · next h => exact iff_of_false nofun h

/-- Trees in canonical form are compared as they are. -/
theorem action_planChange_of_isCanonicalBy {desired live : Document} (context : Nat)
    (hd : Value.isCanonicalBy Value.topOrder desired.root)
    (hl : Value.isCanonicalBy Value.topOrder
      (live.root.project (comparedFields desired live))) :
    (planChange desired (some live) context).action =
      if (live.root.project (comparedFields desired live)).same desired.root then .unchanged
      else .update := by
  rw [action_planChange, seen, Value.canonical, Value.canonical, Value.canonicalBy_eq_self _ _ hd,
    Value.canonicalBy_eq_self _ _ hl]

/-- A projection orders fields as they are wanted; the restriction leaves them where they are. -/
theorem seen_eq_restrict (desired live : Document) :
    seen desired live = (live.root.restrict (comparedFields desired live)).canonical :=
  (Value.canonicalBy_restrict Value.topOrder live.root _ live.wellKeyed
    (wellKeyed_comparedFields desired live)).symm

/-- What is seen of a live object is its tree without some entries, in canonical form. -/
theorem exists_pruned_seen (desired live : Document) :
    ∃ t, Value.Pruned t live.root ∧ t.canonical = seen desired live :=
  ⟨live.root.restrict (comparedFields desired live), Value.pruned_restrict _ _,
    (seen_eq_restrict desired live).symm⟩

/-- Drift of a field that a document sets is not missed, whatever was last applied. -/
theorem exists_pruned_of_unchanged (desired live : Document) (context : Nat)
    (h : (planChange desired (some live) context).action = .unchanged) :
    ∃ t, Value.Pruned t live.root ∧ t.canonical.same desired.root.canonical = true := by
  obtain ⟨t, hpruned, hseen⟩ := exists_pruned_seen desired live
  refine ⟨t, hpruned, ?_⟩
  rw [action_planChange] at h
  rw [hseen]
  by_contra hne
  rw [if_neg hne] at h
  cases h

def desiredConfig : Document where
  root := .mapping [("apiVersion", .string "v1"), ("kind", .string "ConfigMap"),
    ("metadata", .mapping [("name", .string "web")]), ("data", .mapping [("a", .string "1")])]
  wellKeyed := by simp [Ordered.keys]

/-- A live object with fields that the server gave, which another document was applied to. -/
def liveConfig : Document where
  root := .mapping [("kind", .string "ConfigMap"), ("apiVersion", .string "v1"),
    ("metadata", .mapping [("uid", .string "8d1c"), ("name", .string "web"),
      ("annotations", .mapping
        [(lastAppliedKey, .string "\x7b\"data\":\x7b\"b\":\"2\"\x7d\x7d")])]),
    ("data", .mapping [("a", .string "1")])]
  wellKeyed := by simp [Ordered.keys]

theorem exists_pruned_liveConfig :
    (planChange desiredConfig (some liveConfig) 3).action = .unchanged ∧
      ∃ t, Value.Pruned t liveConfig.root ∧
        t.canonical.same desiredConfig.root.canonical = true := by
  have h : (planChange desiredConfig (some liveConfig) 3).action = .unchanged := by
    rw [action_planChange_of_isCanonicalBy 3 (by decide +kernel) (by decide +kernel)]
    decide +kernel
  exact ⟨h, exists_pruned_of_unchanged desiredConfig liveConfig 3 h⟩

end Rollout
