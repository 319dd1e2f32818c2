import Rollout.Proofs.Diff.Script
/-!
Which lines of a script a diff shows. Whatever the number of unchanged lines around a change, no
removed or added line is left out; so texts that differ have a diff with changes.
-/

namespace Rollout.Diff

variable {α : Type}

/-- The lines of a text are the text. -/
theorem flatten_textLines (cs : List Char) : (textLines cs).flatten = cs := by
  fun_induction textLines cs <;> simp_all

namespace Run

def old : Run α → List α
  | kept items => items
  | changed removed _ => removed

def new : Run α → List α
  | kept items => items
  | changed _ added => added

/-- What a run removes, or adds. -/
def edits (m : Mark) : Run α → List α
  | kept _ => []
  | changed removed added => match m with
    | .context => []
    | .removed => removed
    | .added => added

end Run

section Runs

variable {rs : List (Run α)}

theorem flatMap_old_runs (s : Script α) : (runs s).flatMap Run.old = s.old := by
  fun_induction runs s <;> simp_all [Run.old]

theorem flatMap_new_runs (s : Script α) : (runs s).flatMap Run.new = s.new := by
  fun_induction runs s <;> simp_all [Run.new]

/-- Runs without edits are between equal lists. -/
theorem flatMap_old_eq_new (hremoved : rs.flatMap (Run.edits .removed) = [])
    (hadded : rs.flatMap (Run.edits .added) = []) : rs.flatMap Run.old = rs.flatMap Run.new := by
  rw [List.flatMap_eq_nil_iff] at hremoved hadded
  rw [List.flatMap_def, List.flatMap_def]
  congr 1
  apply List.map_congr_left
  intro r hr
  cases r with
  | kept items => rfl
  | changed removed added => exact (hremoved _ hr).trans (hadded _ hr).symm

theorem mark_of_mem_place {mark : Mark} {inOld inNew : Bool} {i j : Nat} {items : List α}
    {l : Line α} (h : l ∈ place mark inOld inNew i j items) : l.mark = mark := by
  obtain ⟨⟨item, n⟩, -, rfl⟩ := List.mem_map.mp h
  rfl

theorem mem_of_mem_near {context : Nat} {isFirst isLast : Bool} {ls : List (Line α)} {l : Line α}
    (h : l ∈ near context isFirst isLast ls) : l ∈ ls := by
  rw [near] at h
  split at h
  · cases h
  · split at h
    · exact List.mem_of_mem_drop h
    · split at h
      · exact List.mem_of_mem_take h
      · split at h
        · exact h
        · rcases List.mem_append.mp h with h | h
          · exact List.mem_of_mem_take h
          · exact List.mem_of_mem_drop h

/-- Lines of one mark, of lines that all have another one. -/
theorem filter_mark_eq_nil {m mark : Mark} {ls : List (Line α)} (h : ∀ l ∈ ls, l.mark = mark)
    (hm : mark ≠ m) : ls.filter (·.mark = m) = [] := by
  rw [List.filter_eq_nil_iff]
  intro l hl
  rw [h l hl, decide_eq_true_iff]
  exact hm

theorem edits_place (m mark : Mark) (inOld inNew : Bool) (i j : Nat) (items : List α) :
    ((place mark inOld inNew i j items).filter (·.mark = m)).map Line.item =
      if mark = m then items else [] := by
  split
  · next h =>
      have hall : ∀ l ∈ place mark inOld inNew i j items, decide (l.mark = m) = true := by
        intro l hl
        rw [decide_eq_true_iff, mark_of_mem_place hl, h]
      rw [List.filter_eq_self.mpr hall, place, List.map_map]
      exact List.zipIdx_map_fst 0 items
  · next h =>
      rw [filter_mark_eq_nil (fun l => mark_of_mem_place) h, List.map_nil]

/-- Only unchanged lines are left out. -/
theorem filter_shown {m : Mark} (hm : m ≠ .context) (context : Nat) (isFirst : Bool) (i j : Nat)
    (rs : List (Run α)) : ((shown context isFirst i j rs).filter (·.mark = m)).map Line.item =
      rs.flatMap (Run.edits m) := by
  fun_induction shown context isFirst i j rs with
  | case1 => rfl
  | case2 isFirst i j items rs ih =>
      rw [List.filter_append,
        filter_mark_eq_nil (fun l hl => mark_of_mem_place (mem_of_mem_near hl)) hm.symm,
        List.nil_append, ih]
      rfl
  | case3 isFirst i j removed added rs ih =>
      rw [List.filter_append, List.filter_append, List.map_append, List.map_append, ih,
        List.flatMap_cons]
      rw [edits_place, edits_place]
      cases m with
      | context => exact absurd rfl hm
      | removed => simp [Run.edits]
      | added => simp [Run.edits]

/-- Runs between different lists show a removed or an added line. -/
theorem exists_edit_shown (hne : rs.flatMap Run.old ≠ rs.flatMap Run.new) (context : Nat)
    (isFirst : Bool) (i j : Nat) :
    ∃ l ∈ shown context isFirst i j rs, l.mark = .removed ∨ l.mark = .added := by
  by_contra hnone
  have hempty {m : Mark} (hm : m ≠ .context) (hmark : m = .removed ∨ m = .added) :
      rs.flatMap (Run.edits m) = [] := by
    rw [← filter_shown hm context isFirst i j rs, List.map_eq_nil_iff, List.filter_eq_nil_iff]
    intro l hl hlm
    rw [decide_eq_true_iff] at hlm
    exact hnone ⟨l, hl, hlm ▸ hmark⟩
  exact hne (flatMap_old_eq_new (hempty nofun (.inl rfl)) (hempty nofun (.inr rfl)))

end Runs

/-- The diff of different texts has a removed or an added line. -/
theorem exists_edit_between {old new : String} (h : old ≠ new) (context : Nat) :
    ∃ l ∈ between old new context, l.mark = .removed ∨ l.mark = .added := by
  have hscript : (script old new).Between (textLines old.toList) (textLines new.toList) :=
    (between_shortest _ _).compact
  have hlines : textLines old.toList ≠ textLines new.toList := by
    intro heq
    have hflat := congrArg List.flatten heq
    rw [flatten_textLines, flatten_textLines] at hflat
    exact h (String.toList_injective hflat)
  have hne : (runs (script old new)).flatMap Run.old ≠ (runs (script old new)).flatMap Run.new := by
    rwa [flatMap_old_runs, flatMap_new_runs, hscript.old, hscript.new]
  obtain ⟨l, hl, hmark⟩ := exists_edit_shown hne context true 0 0
  exact ⟨_, List.mem_map_of_mem hl, hmark⟩

end Rollout.Diff
