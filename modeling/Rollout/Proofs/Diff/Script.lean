import Mathlib.Data.List.Basic
import Rollout.Diff
/-!
The script that a diff shows is a script between the lines of both texts: what it keeps and removes
is the one text, what it keeps and adds the other. Compacting changes nothing about that.
-/

namespace Rollout.Diff

variable {α : Type}

namespace Script

theorem old_cons (e : Edit α) (s : Script α) : old (e :: s) = e.old ++ old s := rfl

theorem new_cons (e : Edit α) (s : Script α) : new (e :: s) = e.new ++ new s := rfl

theorem old_nil : old ([] : Script α) = [] := rfl

theorem new_nil : new ([] : Script α) = [] := rfl

/-- A script that makes one list of another. -/
structure Between (s : Script α) (before after : List α) : Prop where
  old : s.old = before
  new : s.new = after

theorem Between.append {s t : Script α} {a b c d : List α} (hs : s.Between a b)
    (ht : t.Between c d) : (s ++ t).Between (a ++ c) (b ++ d) := by
  constructor
  · rw [old_append, hs.old, ht.old]
  · rw [new_append, hs.new, ht.new]

end Script

open Script

section Shortest

variable [DecidableEq α]

theorem drop_sharedEnd (as bs : List α) :
    as.drop (as.length - sharedEnd as bs) = bs.drop (bs.length - sharedEnd as bs) := by
  have h := congrArg List.reverse (take_sharedStart as.reverse bs.reverse)
  rwa [List.take_reverse, List.take_reverse, List.reverse_reverse, List.reverse_reverse] at h

omit [DecidableEq α] in
theorem between_kept (items : List α) : (kept items).Between items items := by
  rw [kept]
  split
  · next h =>
      rw [List.isEmpty_iff.mp h]
      exact ⟨rfl, rfl⟩
  · exact ⟨List.append_nil _, List.append_nil _⟩

/-- A script between what differs is one between the whole lists. -/
theorem between_trim {old new : List α} {inner : Script α}
    (h : inner.Between (trim old new).old (trim old new).new) :
    (kept (trim old new).start ++ inner ++ kept (trim old new).rest).Between old new := by
  have hsides := ((between_kept (trim old new).start).append h).append
    (between_kept (trim old new).rest)
  constructor
  · rw [hsides.old]
    simp only [trim]
    rw [List.append_assoc, List.take_append_drop, List.take_append_drop]
  · rw [hsides.new]
    simp only [trim]
    rw [take_sharedStart, drop_sharedEnd, List.append_assoc, List.take_append_drop,
      List.take_append_drop]

/-- The shortest script is one between both lists. -/
theorem between_shortest (old new : List α) : (shortest old new).Between old new := by
  have hreplace (a b : List α) : Between [.remove a, .add b] a b :=
    ⟨List.append_nil _, List.append_nil _⟩
  induction hn : old.length + new.length using Nat.strongRecOn generalizing old new with
  | _ n ih =>
      subst hn
      rw [shortest]
      apply between_trim
      split
      · next h =>
          rw [List.isEmpty_iff.mp h.1, List.isEmpty_iff.mp h.2]
          exact ⟨rfl, rfl⟩
      · split
        · next h =>
            rw [List.isEmpty_iff.mp h]
            exact ⟨List.append_nil _, rfl⟩
        · split
          · next h =>
              rw [List.isEmpty_iff.mp h]
              exact ⟨rfl, List.append_nil _⟩
          · split
            · exact hreplace _ _
            · next x y _ =>
                split
                · next h =>
                    have hle := length_trim_le old new
                    simp only [divides, decide_eq_true_eq] at h
                    have hleft := ih _ (by simp only [List.length_take]; omega)
                      ((trim old new).old.take x) ((trim old new).new.take y) rfl
                    have hright := ih _ (by simp only [List.length_drop]; omega)
                      ((trim old new).old.drop x) ((trim old new).new.drop y) rfl
                    have hboth := hleft.append hright
                    rwa [List.take_append_drop, List.take_append_drop] at hboth
                · exact hreplace _ _

end Shortest

section Compact

attribute [simp] Edit.old Edit.new Edit.kind old_append new_append old_cons new_cons old_nil new_nil

/-- Scripts between the same lists. -/
def Script.Alike (s t : Script α) : Prop := s.old = t.old ∧ s.new = t.new

theorem Script.Alike.trans {s t u : Script α} (h : s.Alike t) (h' : t.Alike u) : s.Alike u :=
  ⟨h.1.trans h'.1, h.2.trans h'.2⟩

/-- The whole script about an edit in its place. -/
def Focus.script (f : Focus α) : Script α := f.before.reverse ++ f.here :: f.after

theorem alike_keepBefore (before : Script α) (items : List α) (s : Script α) :
    Alike (before ++ keepBefore items s) (before ++ .keep items :: s) := by
  fun_cases keepBefore items s <;> simp [Alike]

theorem alike_keepAfter (items : List α) (before s : Script α) :
    Alike ((keepAfter items before).reverse ++ s) (before.reverse ++ .keep items :: s) := by
  fun_cases keepAfter items before <;> simp [Alike]

/-- Keeping nothing is no edit. -/
theorem alike_keep_nil (before after : Script α) :
    Alike (before ++ after) (before ++ .keep [] :: after) := by simp [Alike]

/-- A removal and an addition that are neighbours may change places. -/
theorem alike_swap {e other : Edit α} (he : e.kind ≠ .kept) (hother : other.kind ≠ .kept)
    (hne : e.kind ≠ other.kind) (before after : Script α) :
    Alike (before ++ e :: other :: after) (before ++ other :: e :: after) := by
  cases e <;> cases other <;> simp_all [Alike]

/-- An addition moves in front of kept items that it ends with. -/
theorem alike_slideUp {items added rest shared start : List α} (hitems : rest ++ shared = items)
    (hadded : start ++ shared = added) (before after : Script α) :
    Alike (before ++ .keep rest :: .add (shared ++ start) :: keepBefore shared after)
      (before ++ .keep items :: .add added :: after) := by
  subst hitems hadded
  have hkept := alike_keepBefore (before ++ [.keep rest, .add (shared ++ start)]) shared after
  rw [List.append_assoc, List.append_assoc] at hkept
  exact hkept.trans (by simp [Alike])

/-- An addition moves behind kept items that it begins with. -/
theorem alike_slideDown {items added rest shared tail : List α} (hitems : shared ++ rest = items)
    (hadded : shared ++ tail = added) (before after : Script α) :
    Alike ((keepAfter shared before).reverse ++ .add (tail ++ shared) :: .keep rest :: after)
      (before.reverse ++ .add added :: .keep items :: after) := by
  subst hitems hadded
  exact (alike_keepAfter shared before _).trans (by simp [Alike])

section Moves

variable [DecidableEq α]

theorem take_append_sharedEnd (as bs : List α) :
    bs.take (bs.length - sharedEnd as bs) ++ as.drop (as.length - sharedEnd as bs) = bs := by
  rw [drop_sharedEnd, List.take_append_drop]

theorem sharedStart_append_drop (as bs : List α) :
    as.take (sharedStart as bs) ++ bs.drop (sharedStart as bs) = bs := by
  rw [take_sharedStart, List.take_append_drop]

theorem alike_moveUp (before : Script α) (e : Edit α) (after : Script α) (he : e.kind ≠ .kept) :
    (moveUp before e after).script.Alike (before.reverse ++ e :: after) := by
  fun_induction moveUp before e after with
  | case1 e after => exact ⟨rfl, rfl⟩
  | case2 items before added after => exact ⟨rfl, rfl⟩
  | case3 items before added after n rest shared turned hn hrest ih =>
      have hitems : [] ++ shared = items := hrest ▸ List.take_append_drop ..
      have hadded : added.take (added.length - n) ++ shared = added :=
        take_append_sharedEnd items added
      have hslide := alike_slideUp hitems hadded before.reverse after
      rw [List.reverse_cons, List.append_assoc]
      exact ((ih (by simp)).trans (alike_keep_nil ..)).trans hslide
  | case4 items before added after n rest shared turned hn hrest ih =>
      have hitems : rest ++ shared = items := List.take_append_drop ..
      have hadded : added.take (added.length - n) ++ shared = added :=
        take_append_sharedEnd items added
      have hslide := alike_slideUp hitems hadded before.reverse after
      have hmoved := ih (by simp)
      rw [List.reverse_cons, List.append_assoc] at hmoved ⊢
      exact hmoved.trans hslide
  | case5 items before e after hadd => exact ⟨rfl, rfl⟩
  | case6 items before added after ih => exact (ih (by simp)).trans (by simp [Alike])
  | case7 items before removed after ih => exact (ih (by simp)).trans (by simp [Alike])
  | case8 other before e after _ hkeep hadd hremove ih =>
      have hswap : e.kind ≠ other.kind ∧ other.kind ≠ .kept := by
        cases e <;> cases other <;> simp_all
      rw [List.reverse_cons, List.append_assoc]
      exact (ih he).trans (alike_swap he hswap.2 hswap.1 before.reverse after)

theorem alike_moveDown (before : Script α) (e : Edit α) (after : Script α) (he : e.kind ≠ .kept) :
    (moveDown before e after).script.Alike (before.reverse ++ e :: after) := by
  fun_induction moveDown before e after with
  | case1 before e => exact ⟨rfl, rfl⟩
  | case2 before added items after => exact ⟨rfl, rfl⟩
  | case3 before added items after n rest shared turned hn hrest ih =>
      have hitems : shared ++ [] = items := hrest ▸ List.take_append_drop ..
      have hadded : shared ++ added.drop n = added := sharedStart_append_drop items added
      have hslide := alike_slideDown hitems hadded before after
      have hkept := alike_keep_nil ((keepAfter shared before).reverse ++ [.add turned]) after
      rw [List.append_assoc, List.append_assoc] at hkept
      exact ((ih (by simp)).trans hkept).trans hslide
  | case4 before added items after n rest shared turned hn hrest ih =>
      have hitems : shared ++ rest = items := List.take_append_drop ..
      have hadded : shared ++ added.drop n = added := sharedStart_append_drop items added
      exact (ih (by simp)).trans (alike_slideDown hitems hadded before after)
  | case5 before e items after hadd => exact ⟨rfl, rfl⟩
  | case6 before added items after ih => exact (ih (by simp)).trans (by simp [Alike])
  | case7 before removed items after ih => exact (ih (by simp)).trans (by simp [Alike])
  | case8 before e other after _ hkeep hadd hremove ih =>
      have hswap : e.kind ≠ other.kind ∧ other.kind ≠ .kept := by
        cases e <;> cases other <;> simp_all
      have hmoved := ih he
      rw [List.reverse_cons, List.append_assoc] at hmoved
      exact hmoved.trans (alike_swap hswap.2 he hswap.1.symm before.reverse after)

theorem alike_compactKind {k : Kind} (hk : k ≠ .kept) (before rest : Script α) :
    (compactKind k before rest).Alike (before.reverse ++ rest) := by
  fun_induction compactKind k before rest with
  | case1 before => exact ⟨by simp, by simp⟩
  | case2 before e after he up down ih =>
      have hup := alike_moveUp before e after (he ▸ hk)
      have hdown := alike_moveDown up.before up.here up.after (by rwa [kind_moveUp, he])
      rw [List.reverse_cons, List.append_assoc] at ih
      exact (ih.trans hdown).trans hup
  | case3 before e after he ih =>
      rw [List.reverse_cons, List.append_assoc] at ih
      exact ih

/-- Compacting a script keeps what it is a script between. -/
theorem Script.Between.compact {s : Script α} {a b : List α} (h : s.Between a b) :
    (compact s).Between a b := by
  obtain ⟨hold, hnew⟩ := (alike_compactKind (k := .added) nofun [] _).trans
    (alike_compactKind (k := .removed) nofun [] s)
  exact ⟨hold.trans h.old, hnew.trans h.new⟩

end Moves

end Compact

end Rollout.Diff
