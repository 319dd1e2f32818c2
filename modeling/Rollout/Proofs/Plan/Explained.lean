import Rollout.Proofs.Diff.Shown
import Rollout.Proofs.Plan.Drift
/-!
Every planned update shows its reason. What is compared are trees, and what is shown are the lines
of their texts; but trees that differ have different texts, these have different lines, and of those
lines none that was removed or added is left out.
-/

namespace Rollout

/-- Two trees are written differently, if they differ. -/
def Value.ToldApart (v w : Value) : Prop := v.toYaml = w.toYaml → v.same w = true

variable {desired : Document} {live : Option Document} {context : Nat}

theorem exists_of_diff? {diff : Diff} (h : (planChange desired live context).diff? = some diff) :
    ∃ l, live = some l ∧ (seen desired l).same desired.root.canonical = false ∧
      diff = .between (seen desired l).toYaml desired.root.canonical.toYaml context := by
  cases live with
  | none => cases h
  | some l =>
      rw [planChange] at h
      split at h
      · cases h
      · next hne => exact ⟨l, rfl, Bool.eq_false_iff.mpr hne, (Option.some.inj h).symm⟩

theorem isSome_diff?_iff :
    (planChange desired live context).diff?.isSome ↔
      (planChange desired live context).action = .update := by
  cases planChange desired live context with
  | update d l diff => exact iff_of_true rfl rfl
  | _ => exact iff_of_false nofun nofun

/-- A change has a diff exactly if it is an update, and its diff removes or adds a line, with
however many unchanged lines around it. -/
theorem planChange_explained (hyaml : ∀ l, live = some l →
      (seen desired l).ToldApart desired.root.canonical) (context : Nat) :
    ((planChange desired live context).diff?.isSome ↔
        (planChange desired live context).action = .update) ∧
      ∀ diff, (planChange desired live context).diff? = some diff →
        diff.hasChanges = true ∧ ∃ line ∈ diff, line.mark = .removed ∨ line.mark = .added := by
  refine ⟨isSome_diff?_iff, ?_⟩
  intro diff hdiff
  obtain ⟨l, hlive, hdiffers, rfl⟩ := exists_of_diff? hdiff
  have htexts : (seen desired l).toYaml ≠ desired.root.canonical.toYaml := by
    intro heq
    rw [hyaml l hlive heq] at hdiffers
    cases hdiffers
  obtain ⟨line, hline, hmark⟩ := Diff.exists_edit_between htexts context
  refine ⟨?_, line, hline, hmark⟩
  rw [Diff.hasChanges, List.any_eq_true]
  refine ⟨line, hline, decide_eq_true ?_⟩
  rcases hmark with hmark | hmark <;> simp [hmark]

/-- The object with a value that was changed by hand. -/
def staleConfig : Document where
  root := .mapping [("apiVersion", .string "v1"), ("kind", .string "ConfigMap"),
    ("metadata", .mapping [("name", .string "web"), ("uid", .string "8d1c")]),
    ("data", .mapping [("a", .string "2")])]
  wellKeyed := by simp [Ordered.keys]

theorem seen_staleConfig : seen desiredConfig staleConfig =
    .mapping [("apiVersion", .string "v1"), ("kind", .string "ConfigMap"),
      ("metadata", .mapping [("name", .string "web")]), ("data", .mapping [("a", .string "2")])] :=
  Value.canonicalBy_eq_self _ _ (by decide +kernel)

theorem canonical_desiredConfig : desiredConfig.root.canonical = desiredConfig.root :=
  Value.canonicalBy_eq_self _ _ (by decide +kernel)

theorem planChange_explained_staleConfig :
    (seen desiredConfig staleConfig).ToldApart desiredConfig.root.canonical ∧
      (planChange desiredConfig (some staleConfig) 3).action = .update ∧
      ∃ diff, (planChange desiredConfig (some staleConfig) 3).diff? = some diff ∧
        diff.hasChanges = true ∧ ∃ line ∈ diff, line.mark = .removed ∨ line.mark = .added := by
  have htexts : (seen desiredConfig staleConfig).toYaml ≠ desiredConfig.root.canonical.toYaml := by
    rw [seen_staleConfig, canonical_desiredConfig]
    decide +kernel
  have htold : (seen desiredConfig staleConfig).ToldApart desiredConfig.root.canonical :=
    fun heq => absurd heq htexts
  have hupdate : (planChange desiredConfig (some staleConfig) 3).action = .update := by
    rw [action_planChange, seen_staleConfig, canonical_desiredConfig]
    decide +kernel
  have hlive : ∀ l, some staleConfig = some l →
      (seen desiredConfig l).ToldApart desiredConfig.root.canonical := by
    rintro l ⟨⟩
    exact htold
  obtain ⟨hdiff, hlines⟩ := planChange_explained hlive 3
  obtain ⟨diff, hsome⟩ := Option.isSome_iff_exists.mp (hdiff.mpr hupdate)
  exact ⟨htold, hupdate, diff, hsome, hlines diff hsome⟩

end Rollout
