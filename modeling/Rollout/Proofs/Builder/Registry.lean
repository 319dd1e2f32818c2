import Rollout.Proofs.Builder.Registration
/-!
What is registered with a builder. Whatever calls were made on a new one, no name and no identity is
registered twice, and all stands in the order in which it was registered. A call that is refused
changes nothing.
-/

namespace Rollout

/-- What happens to a registry: an item is added, or the one with a key is removed. -/
inductive Update (α κ : Type) where
  | added (item : α)
  | removed (key : κ)

namespace Update

variable {α κ : Type} [DecidableEq κ] {key : α → κ}

def removes (k : κ) : Update α κ → Bool
  | added _ => false
  | removed j => j = k

/-- The items that were added and not removed later, in the order in which they were added. -/
def standing (key : α → κ) : List (Update α κ) → List α
  | [] => []
  | added a :: us => if us.any (removes (key a)) then standing key us else a :: standing key us
  | removed _ :: us => standing key us

theorem any_removes_added (k : κ) (as : List α) : (as.map added).any (removes k) = false := by
  simp [removes]

theorem standing_added (as : List α) : standing key (as.map added) = as := by
  induction as with
  | nil => rfl
  | cons a as ih =>
      rw [List.map_cons, standing, any_removes_added, if_neg Bool.false_ne_true, ih]

theorem standing_append_added (us : List (Update α κ)) (as : List α) :
    standing key (us ++ as.map added) = standing key us ++ as := by
  induction us with
  | nil => exact standing_added as
  | cons u us ih =>
      cases u with
      | added a =>
          rw [List.cons_append, standing, standing, List.any_append, any_removes_added,
            Bool.or_false, ih]
          split <;> rfl
      | removed k => exact ih

theorem standing_append_removed (us : List (Update α κ)) (k : κ) :
    standing key (us ++ [removed k]) = (standing key us).filter (key · ≠ k) := by
  induction us with
  | nil => rfl
  | cons u us ih =>
      cases u with
      | added a =>
          have hlast : [removed k].any (removes (α := α) (key a)) = decide (k = key a) := by
            simp [removes]
          rw [List.cons_append, standing, standing, List.any_append, hlast, ih]
          cases us.any (removes (key a)) with
          | true => simp
          | false =>
              by_cases hk : k = key a
              · simp [hk]
              · simp [hk, Ne.symm hk]
      | removed j => exact ih

/-- Where no key is there twice, the first item with a key is the only one. -/
theorem eraseP_eq_filter {items : List α} (h : (items.map key).Nodup) (k : κ) :
    items.eraseP (key · = k) = items.filter (key · ≠ k) := by
  induction items with
  | nil => rfl
  | cons a items ih =>
      rw [List.map_cons, List.nodup_cons] at h
      by_cases hk : key a = k
      · have hothers : ∀ b ∈ items, key b ≠ k := by
          intro b hb hbk
          exact h.1 (List.mem_map.mpr ⟨b, hb, hbk.trans hk.symm⟩)
        rw [List.eraseP_cons_of_pos (by simpa using hk),
          List.filter_cons_of_neg (by simpa using hk),
          List.filter_eq_self.mpr (by simpa using hothers)]
      · rw [List.eraseP_cons_of_neg (by simpa using hk),
          List.filter_cons_of_pos (by simpa using hk), ih h.2]

end Update

open Update

/-- The items of a registry are those that are standing, and no key is there twice. -/
structure Registered {α κ : Type} [DecidableEq κ] (key : α → κ) (items : List α)
    (us : List (Update α κ)) : Prop where
  eq_standing : items = standing key us
  nodup : (items.map key).Nodup

namespace Registered

variable {α κ : Type} [DecidableEq κ] {key : α → κ} {items : List α} {us : List (Update α κ)}

theorem start {items : List α} (hnodup : (items.map key).Nodup) :
    Registered key items (items.map added) :=
  ⟨(standing_added items).symm, hnodup⟩

theorem keep (h : Registered key items us) : Registered key items (us ++ []) := by
  rwa [List.append_nil]

theorem addAll (h : Registered key items us) (as : List α)
    (hnodup : ((items ++ as).map key).Nodup) :
    Registered key (items ++ as) (us ++ as.map added) where
  eq_standing := by rw [standing_append_added, ← h.eq_standing]
  nodup := hnodup

theorem add (h : Registered key items us) {a : α} (hnew : key a ∉ items.map key) :
    Registered key (items ++ [a]) (us ++ [added a]) := by
  refine h.addAll [a] ?_
  rw [List.map_append]
  exact h.nodup.append (List.nodup_singleton _) (by simpa using hnew)

theorem remove (h : Registered key items us) (k : κ) :
    Registered key (items.eraseP (key · = k)) (us ++ [removed k]) where
  eq_standing := by
    rw [standing_append_removed, ← h.eq_standing, eraseP_eq_filter h.nodup]
  nodup := h.nodup.sublist (List.eraseP_sublist.map _)

end Registered

theorem Manifest.parse_eq_bind (text : String) :
    Manifest.parse text =
      (Manifest.split text.toList).zipIdx.mapM (fun p => Manifest.parsePiece p.2 p.1) >>=
        fun ds => .ok (ds.filterMap id) := rfl

/-- The first piece of a stream that is no document makes reading it fail. -/
theorem Manifest.parse_eq_error_iff {text : String} {e : BuildError} :
    Manifest.parse text = .error e ↔ ∃ pre piece i post,
      (Manifest.split text.toList).zipIdx = pre ++ (piece, i) :: post ∧
        (∀ p ∈ pre, ∃ d, Manifest.parsePiece p.2 p.1 = .ok d) ∧
        Manifest.parsePiece i piece = .error e := by
  rw [Manifest.parse_eq_bind]
  constructor
  · intro h
    cases hpieces : (Manifest.split text.toList).zipIdx.mapM
        (fun p => Manifest.parsePiece p.2 p.1) with
    | ok ds =>
        rw [hpieces] at h
        cases h
    | error e' =>
        rw [hpieces] at h
        cases h
        obtain ⟨pre, ⟨piece, i⟩, post, hsplit, hpre, hpiece⟩ := mapM_eq_error_iff.mp hpieces
        exact ⟨pre, piece, i, post, hsplit, hpre, hpiece⟩
  · rintro ⟨pre, piece, i, post, hsplit, hpre, hpiece⟩
    rw [mapM_eq_error_iff.mpr ⟨pre, (piece, i), post, hsplit, hpre, hpiece⟩]
    rfl

namespace Builder

variable {b b' : Builder} {text : String} {ds pre post : List Document} {d : Document}
  {seen : List Key} {e : BuildError}

theorem addComponent_eq_error {c : Component} : (b.addComponent c).1 = .error e ↔
    c.name ∈ b.componentNames ∧ e = .duplicateComponent c.name := by
  rw [addComponent, fst_guard_eq_error, hasComponent, List.contains_iff_mem]

theorem addComponent_eq_ok {c : Component} : b.addComponent c = (.ok (), b') ↔
    c.name ∉ b.componentNames ∧ b' = { b with components := b.components ++ [c] } := by
  rw [addComponent, guard_eq_ok, hasComponent, List.contains_iff_mem, eq_self, true_and]

theorem addDocument_eq_error : (b.addDocument d).1 = .error e ↔
    d.key ∈ b.documents.map Document.key ∧ e = .duplicateDocument d.key [directSource] := by
  rw [addDocument, fst_guard_eq_error, List.contains_iff_mem]

theorem addDocument_eq_ok : b.addDocument d = (.ok (), b') ↔
    d.key ∉ b.documents.map Document.key ∧ b' = { b with documents := b.documents ++ [d] } := by
  rw [addDocument, guard_eq_ok, List.contains_iff_mem, eq_self, true_and]

theorem addStage_eq_error {s : Stage} : (b.addStage s).1 = .error e ↔
    s.name ∈ b.stageNames ∧ e = .duplicateStage s.name := by
  rw [addStage, fst_guard_eq_error, List.contains_iff_mem]

theorem addStage_eq_ok {s : Stage} : b.addStage s = (.ok (), b') ↔
    s.name ∉ b.stageNames ∧ b' = { b with stages := b.stages ++ [s] } := by
  rw [addStage, guard_eq_ok, List.contains_iff_mem, eq_self, true_and]

theorem firstRepeat?_cons_of_mem (h : d.key ∈ seen) :
    firstRepeat? seen (d :: ds) = some d := by
  rw [firstRepeat?, if_pos (List.contains_iff_mem.mpr h)]

theorem firstRepeat?_cons_of_not_mem (h : d.key ∉ seen) :
    firstRepeat? seen (d :: ds) = firstRepeat? (d.key :: seen) ds := by
  rw [firstRepeat?, if_neg fun hd => h (List.contains_iff_mem.mp hd)]

theorem firstRepeat?_eq_none_iff :
    firstRepeat? seen ds = none ↔ (ds.map Document.key).Nodup ∧ ∀ d ∈ ds, d.key ∉ seen := by
  induction ds generalizing seen with
  | nil => simp [firstRepeat?]
  | cons d ds ih =>
      rw [List.map_cons, List.nodup_cons, List.forall_mem_cons]
      by_cases hd : d.key ∈ seen
      · rw [firstRepeat?_cons_of_mem hd]
        exact iff_of_false nofun fun h => h.2.1 hd
      · have hothers : (∀ e ∈ ds, e.key ∉ d.key :: seen) ↔
            d.key ∉ ds.map Document.key ∧ ∀ e ∈ ds, e.key ∉ seen := by
          simp only [List.mem_cons, not_or, List.mem_map, not_exists, not_and, forall_and]
        rw [firstRepeat?_cons_of_not_mem hd, ih, hothers]
        exact ⟨fun ⟨hnodup, hnew, hrest⟩ => ⟨⟨hnew, hnodup⟩, hd, hrest⟩,
          fun ⟨⟨hnew, hnodup⟩, _, hrest⟩ => ⟨hnodup, hnew, hrest⟩⟩

/-- The check stops at the first document that was seen. -/
theorem firstRepeat?_eq_some_iff :
    firstRepeat? seen ds = some d ↔ ∃ pre post, ds = pre ++ d :: post ∧
      firstRepeat? seen pre = none ∧ (d.key ∈ seen ∨ d.key ∈ pre.map Document.key) := by
  induction ds generalizing seen with
  | nil => exact iff_of_false nofun fun ⟨pre, _, h, _⟩ => by cases pre <;> cases h
  | cons a ds ih =>
      by_cases ha : a.key ∈ seen
      · rw [firstRepeat?_cons_of_mem ha, Option.some_inj]
        constructor
        · rintro rfl
          exact ⟨[], ds, rfl, rfl, .inl ha⟩
        · rintro ⟨_ | ⟨a', pre⟩, post, hds, hpre, -⟩
          · exact (List.cons.inj hds).1
          · obtain ⟨rfl, -⟩ := List.cons.inj hds
            exact absurd ha (List.forall_mem_cons.mp (firstRepeat?_eq_none_iff.mp hpre).2).1
      · rw [firstRepeat?_cons_of_not_mem ha, ih]
        constructor
        · rintro ⟨pre, post, rfl, hpre, hd⟩
          refine ⟨a :: pre, post, rfl, (firstRepeat?_cons_of_not_mem ha).trans hpre, ?_⟩
          rw [List.map_cons, List.mem_cons]
          rw [List.mem_cons] at hd
          tauto
        · rintro ⟨_ | ⟨a', pre⟩, post, hds, hpre, hd⟩
          · obtain ⟨rfl, -⟩ := List.cons.inj hds
            exact absurd (hd.resolve_right nofun) ha
          · obtain ⟨rfl, rfl⟩ := List.cons.inj hds
            refine ⟨pre, post, rfl, (firstRepeat?_cons_of_not_mem ha).symm.trans hpre, ?_⟩
            rw [List.map_cons, List.mem_cons] at hd
            rw [List.mem_cons]
            tauto

/-- A document repeats the identity of one that was there, or that comes before it. -/
structure Repeats (b : Builder) (ds pre : List Document) (d : Document) : Prop where
  mem : ∃ post, ds = pre ++ d :: post
  distinct : Distinct (b.documents ++ pre)
  taken : d.key ∈ (b.documents ++ pre).map Document.key

theorem distinct_append_iff (hdocs : Distinct b.documents) :
    Distinct (b.documents ++ ds) ↔ firstRepeat? (b.documents.map Document.key) ds = none := by
  rw [Distinct, List.map_append, List.nodup_append', firstRepeat?_eq_none_iff]
  constructor
  · rintro ⟨-, hnodup, hdisjoint⟩
    exact ⟨hnodup, fun d hd hseen => hdisjoint hseen (List.mem_map_of_mem hd)⟩
  · rintro ⟨hnodup, hnew⟩
    refine ⟨hdocs, hnodup, fun k hk hin => ?_⟩
    obtain ⟨d, hd, rfl⟩ := List.mem_map.mp hin
    exact hnew d hd hk

theorem exists_repeats_iff (hdocs : Distinct b.documents) :
    (∃ pre, b.Repeats ds pre d) ↔
      firstRepeat? (b.documents.map Document.key) ds = some d := by
  rw [firstRepeat?_eq_some_iff]
  refine exists_congr fun pre => ?_
  constructor
  · rintro ⟨⟨post, hds⟩, hdistinct, htaken⟩
    rw [List.map_append, List.mem_append] at htaken
    exact ⟨post, hds, (distinct_append_iff hdocs).mp hdistinct, htaken⟩
  · rintro ⟨post, hds, hdistinct, htaken⟩
    rw [← List.mem_append, ← List.map_append] at htaken
    exact ⟨⟨post, hds⟩, (distinct_append_iff hdocs).mpr hdistinct, htaken⟩

/-- Documents of a stream are added once all of them are read and checked. -/
theorem addManifest_cases (b : Builder) (text : String) :
    (∃ e, Manifest.parse text = .error e ∧ b.addManifest text = (.error e, b)) ∨
    (∃ ds d, Manifest.parse text = .ok ds ∧
      firstRepeat? (b.documents.map Document.key) ds = some d ∧
      b.addManifest text = (.error (.duplicateDocument d.key [directSource]), b)) ∨
    ∃ ds, Manifest.parse text = .ok ds ∧
      firstRepeat? (b.documents.map Document.key) ds = none ∧
      b.addManifest text = (.ok ds.length, { b with documents := b.documents ++ ds }) := by
  rw [addManifest]
  cases Manifest.parse text with
  | error e => exact .inl ⟨e, rfl, rfl⟩
  | ok ds =>
      dsimp only
      cases hfirst : firstRepeat? (b.documents.map Document.key) ds with
      | some d => exact .inr (.inl ⟨ds, d, rfl, hfirst, rfl⟩)
      | none => exact .inr (.inr ⟨ds, rfl, hfirst, rfl⟩)

/-- A stream that is refused is refused as a whole. -/
theorem addManifest_eq_of_error (h : (b.addManifest text).1 = .error e) :
    (b.addManifest text).2 = b := by
  rcases b.addManifest_cases text with ⟨e', -, hadd⟩ | ⟨ds, d, -, -, hadd⟩ | ⟨ds, -, -, hadd⟩
  · rw [hadd]
  · rw [hadd]
  · rw [hadd] at h
    cases h

theorem addManifest_eq_error_iff (hdocs : Distinct b.documents) :
    (b.addManifest text).1 = .error e ↔ Manifest.parse text = .error e ∨
      ∃ ds pre d, Manifest.parse text = .ok ds ∧ b.Repeats ds pre d ∧
        e = .duplicateDocument d.key [directSource] := by
  constructor
  · intro h
    rcases b.addManifest_cases text with
      ⟨e', hparse, hadd⟩ | ⟨ds, d, hparse, hfirst, hadd⟩ | ⟨ds, -, -, hadd⟩
    · rw [hadd] at h
      cases h
      exact .inl hparse
    · rw [hadd] at h
      cases h
      obtain ⟨pre, hd⟩ := (exists_repeats_iff hdocs).mpr hfirst
      exact .inr ⟨ds, pre, d, hparse, hd, rfl⟩
    · rw [hadd] at h
      cases h
  · rintro (hparse | ⟨ds, pre, d, hparse, hd, rfl⟩)
    · rw [addManifest, hparse]
    · rw [addManifest, hparse]
      dsimp only
      rw [(exists_repeats_iff hdocs).mp ⟨pre, hd⟩]

theorem addManifest_eq_ok_iff (hdocs : Distinct b.documents) {n : Nat} :
    b.addManifest text = (.ok n, b') ↔ ∃ ds, Manifest.parse text = .ok ds ∧
      Distinct (b.documents ++ ds) ∧ n = ds.length ∧
        b' = { b with documents := b.documents ++ ds } := by
  constructor
  · intro h
    rcases b.addManifest_cases text with
      ⟨e, -, hadd⟩ | ⟨ds, d, -, -, hadd⟩ | ⟨ds, hparse, hfirst, hadd⟩
    · cases hadd.symm.trans h
    · cases hadd.symm.trans h
    · cases hadd.symm.trans h
      exact ⟨ds, hparse, (distinct_append_iff hdocs).mpr hfirst, rfl, rfl⟩
  · rintro ⟨ds, hparse, hdistinct, rfl, rfl⟩
    rw [addManifest, hparse]
    dsimp only
    rw [(distinct_append_iff hdocs).mp hdistinct]

/-- The calls that change what is registered. -/
inductive Call where
  | addComponent (c : Component)
  | removeComponent (name : String)
  | addDocument (d : Document)
  | addManifest (text : String)
  | removeDocument (k : Key)
  | addStage (s : Stage)
  | removeStage (name : String)

namespace Call

/-- The documents of a stream, if it has no fault. -/
def documentsOf (text : String) : List Document :=
  match Manifest.parse text with
  | .ok ds => ds
  | .error _ => []

/-- What a call that is not refused does to the registry of components. -/
def components : Call → List (Update Component String)
  | addComponent c => [.added c]
  | removeComponent name => [.removed name]
  | _ => []

def documents : Call → List (Update Document Key)
  | addDocument d => [.added d]
  | addManifest text => (documentsOf text).map .added
  | removeDocument k => [.removed k]
  | _ => []

def stages : Call → List (Update Stage String)
  | addStage s => [.added s]
  | removeStage name => [.removed name]
  | _ => []

end Call

/-- What a call returns, and the builder after it. -/
def perform (b : Builder) : Call → Except BuildError Unit × Builder
  | .addComponent c => b.addComponent c
  | .removeComponent name => (.ok (), (b.removeComponent name).2)
  | .addDocument d => b.addDocument d
  | .addManifest text => ((b.addManifest text).1.map fun _ => (), (b.addManifest text).2)
  | .removeDocument k => (.ok (), (b.removeDocument k).2)
  | .addStage s => b.addStage s
  | .removeStage name => (.ok (), (b.removeStage name).2)

def performAll (b : Builder) (calls : List Call) : Builder :=
  calls.foldl (fun b c => (b.perform c).2) b

/-- The calls that are not refused. -/
def accepted (b : Builder) : List Call → List Call
  | [] => []
  | c :: calls =>
    match b.perform c with
    | (.ok (), b') => c :: accepted b' calls
    | (.error _, b') => accepted b' calls

/-- Why a call is refused: a name or an identity is taken, or a piece of a stream is at fault. -/
def Refuses (b : Builder) (e : BuildError) : Call → Prop
  | .addComponent c => c.name ∈ b.componentNames ∧ e = .duplicateComponent c.name
  | .addDocument d =>
    d.key ∈ b.documents.map Document.key ∧ e = .duplicateDocument d.key [directSource]
  | .addStage s => s.name ∈ b.stageNames ∧ e = .duplicateStage s.name
  | .addManifest text =>
    (∃ pre piece i post, (Manifest.split text.toList).zipIdx = pre ++ (piece, i) :: post ∧
      (∀ p ∈ pre, ∃ d, Manifest.parsePiece p.2 p.1 = .ok d) ∧
        Manifest.parsePiece i piece = .error e) ∨
    ∃ ds pre d, Manifest.parse text = .ok ds ∧ b.Repeats ds pre d ∧
      e = .duplicateDocument d.key [directSource]
  | .removeComponent _ | .removeDocument _ | .removeStage _ => False

/-- A call that is refused leaves the builder as it was. -/
theorem perform_eq_of_error {c : Call} (h : (b.perform c).1 = .error e) :
    (b.perform c).2 = b := by
  cases c with
  | addComponent c => exact snd_guard_of_error h
  | removeComponent name => cases h
  | addDocument d => exact snd_guard_of_error h
  | addManifest text => exact addManifest_eq_of_error (map_eq_error.mp h)
  | removeDocument k => cases h
  | addStage s => exact snd_guard_of_error h
  | removeStage name => cases h

theorem perform_eq_error_iff (hdocs : Distinct b.documents) {c : Call} :
    (b.perform c).1 = .error e ↔ b.Refuses e c := by
  cases c with
  | addComponent c => exact addComponent_eq_error
  | removeComponent name => exact iff_of_false nofun id
  | addDocument d => exact addDocument_eq_error
  | addManifest text =>
      rw [perform, map_eq_error, addManifest_eq_error_iff hdocs, Manifest.parse_eq_error_iff]
      rfl
  | removeDocument k => exact iff_of_false nofun id
  | addStage s => exact addStage_eq_error
  | removeStage name => exact iff_of_false nofun id

/-- The three registries hold what these calls left in them. -/
structure Consistent (b : Builder) (calls : List Call) : Prop where
  components : Registered Component.name b.components (calls.flatMap Call.components)
  documents : Registered Document.key b.documents (calls.flatMap Call.documents)
  stages : Registered Stage.name b.stages
    (Stage.defaults.map .added ++ calls.flatMap Call.stages)

theorem consistent_new (cluster : ClusterContext) :
    Consistent ({ cluster := cluster } : Builder) [] where
  components := .start List.nodup_nil
  documents := .start List.nodup_nil
  stages := by
    have hdefaults : (Stage.defaults.map Stage.name).Nodup := by decide
    rw [List.flatMap_nil, List.append_nil]
    exact .start hdefaults

theorem consistent_append_singleton {calls : List Call} {c : Call}
    (hcomponents : Registered Component.name b.components
      (calls.flatMap Call.components ++ c.components))
    (hdocuments : Registered Document.key b.documents
      (calls.flatMap Call.documents ++ c.documents))
    (hstages : Registered Stage.name b.stages
      (Stage.defaults.map .added ++ calls.flatMap Call.stages ++ c.stages)) :
    b.Consistent (calls ++ [c]) := by
  have hflat {α : Type} (f : Call → List α) :
      (calls ++ [c]).flatMap f = calls.flatMap f ++ f c := by
    rw [List.flatMap_append, List.flatMap_singleton]
  refine ⟨?_, ?_, ?_⟩
  · rwa [hflat]
  · rwa [hflat]
  · rwa [hflat, ← List.append_assoc]

/-- What an accepted call leaves in the registries. -/
theorem Consistent.perform {calls : List Call} (h : b.Consistent calls) {c : Call}
    (hc : b.perform c = (.ok (), b')) : b'.Consistent (calls ++ [c]) := by
  cases c with
  | addComponent c =>
      obtain ⟨hnew, rfl⟩ := addComponent_eq_ok.mp hc
      exact consistent_append_singleton (h.components.add hnew) h.documents.keep h.stages.keep
  | removeComponent name =>
      cases hc
      exact consistent_append_singleton (h.components.remove name) h.documents.keep h.stages.keep
  | addDocument d =>
      obtain ⟨hnew, rfl⟩ := addDocument_eq_ok.mp hc
      exact consistent_append_singleton h.components.keep (h.documents.add hnew) h.stages.keep
  | addManifest text =>
      obtain ⟨n, hadded⟩ : ∃ n, b.addManifest text = (.ok n, b') := by
        obtain ⟨hdone, rfl⟩ := Prod.mk.inj hc
        obtain ⟨n, hcount, -⟩ := map_eq_ok.mp hdone
        exact ⟨n, Prod.ext hcount rfl⟩
      obtain ⟨ds, hparse, hdistinct, -, rfl⟩ :=
        (addManifest_eq_ok_iff h.documents.nodup).mp hadded
      have hdocuments : Call.documents (.addManifest text) = ds.map .added := by
        rw [Call.documents, Call.documentsOf, hparse]
      refine consistent_append_singleton h.components.keep ?_ h.stages.keep
      rw [hdocuments]
      exact h.documents.addAll ds hdistinct
  | removeDocument k =>
      cases hc
      exact consistent_append_singleton h.components.keep (h.documents.remove k) h.stages.keep
  | addStage s =>
      obtain ⟨hnew, rfl⟩ := addStage_eq_ok.mp hc
      exact consistent_append_singleton h.components.keep h.documents.keep (h.stages.add hnew)
  | removeStage name =>
      cases hc
      exact consistent_append_singleton h.components.keep h.documents.keep (h.stages.remove name)

/-- What a run of calls leaves in the registries: that of the accepted ones. -/
theorem Consistent.performAll {before : List Call} (h : b.Consistent before) (calls : List Call) :
    (b.performAll calls).Consistent (before ++ b.accepted calls) := by
  induction calls generalizing b before with
  | nil => rwa [accepted, List.append_nil]
  | cons c calls ih =>
      have hrun : b.performAll (c :: calls) = (b.perform c).2.performAll calls := rfl
      rw [hrun, accepted]
      split
      · next b' hc =>
          rw [hc, List.append_cons]
          exact ih (h.perform hc)
      · next e b' hc =>
          have hkept : b' = b := by
            have hsnd := perform_eq_of_error (congrArg Prod.fst hc)
            rwa [hc] at hsnd
          rw [hc, hkept]
          exact ih h

/-- What a build makes of the documents it starts with. -/
def buildFrom (b : Builder) (direct : DocumentSet) (ns : Option String) :
    Except BuildError Build := do
  let order ← Component.order b.dependencies
  let s ← (order.filterMap (b.components[·]?)).foldlM b.runComponent direct
  let s ← giveNamespace ns s
  let s ← b.stages.foldlM b.runStage s
  Build.ofDocuments s.documents

/-- Where identities are distinct, a build starts with all documents that were added directly. -/
theorem exists_direct (hdocs : Distinct b.documents) :
    ∃ direct, b.directDocuments = .ok direct ∧ direct.documents = b.documents ∧
      ∀ ns, b.build ns = b.buildFrom direct ns := by
  obtain ⟨direct, hdirect, -, hdocuments⟩ := b.yields_directDocuments.ok hdocs
  refine ⟨direct, hdirect, hdocuments, fun ns => ?_⟩
  rw [build, gather_eq, hdirect, buildFrom, bind_assoc]
  rfl

/-- After any calls on a new builder no name and no identity is registered twice, and each registry
holds what was added and not removed, in that order. The next call fails exactly for one of the
known reasons, with that error, and then changes nothing. A build cannot fail at the documents that
were added directly: it starts with all of them. -/
theorem registries_of_calls (cluster : ClusterContext) (calls : List Call) :
    let new : Builder := { cluster := cluster }
    let b := new.performAll calls
    b.Consistent (new.accepted calls) ∧
      (∀ c e, ((b.perform c).1 = .error e ↔ b.Refuses e c) ∧
        ((b.perform c).1 = .error e → (b.perform c).2 = b)) ∧
      ∃ direct, b.directDocuments = .ok direct ∧ direct.documents = b.documents ∧
        ∀ ns, b.build ns = b.buildFrom direct ns := by
  intro new b
  have h : b.Consistent (new.accepted calls) := (consistent_new cluster).performAll calls
  have hdocs : Distinct b.documents := h.documents.nodup
  exact ⟨h, fun c e => ⟨perform_eq_error_iff hdocs, perform_eq_of_error⟩, exists_direct hdocs⟩

/-- A stage that is removed and added again is the last one; a name that is taken is refused. -/
example : (performAll {} [.removeStage "crds", .addStage .crds, .addStage .namespaces]).stageNames =
    ["namespaces", "canonical-fields", "crds"] := by decide

end Builder

end Rollout
