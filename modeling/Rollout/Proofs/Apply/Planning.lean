import Rollout.Apply.Engine
/-!
Planning as a run of reads. It keeps what each read keeps, two servers that read alike plan alike,
and while it is watched for cancelling it gives the same plan, or that is seen.
-/

namespace Rollout.Server

variable {S T : Type} {server : Server S} {b : Build} {o : ApplyOptions} {s : S}

section Keeping

variable {P : S → Prop} (hget : ∀ s r, P s → P (server.get s r).2)

include hget

theorem planDocuments_keeps (crds : List CrdRef) (context : Nat) (ds : List Document) (hs : P s) :
    P (server.planDocuments crds context s ds).2 := by
  induction ds generalizing s with
  | nil => exact hs
  | cons d ds ih => exact ih (hget s (d.liveRef crds) hs)

/-- What every read keeps is kept by planning. -/
theorem plan_keeps (hlist : ∀ s selector, P s → P (server.list s selector).2) (b : Build)
    (o : ApplyOptions) (hs : P s) : P (server.plan b o s).2 := by
  have hread := planDocuments_keeps hget (b.documents.filterMap Document.crd?) o.diffContext
    b.documents hs
  rw [plan]
  dsimp only
  split
  · exact hread
  · exact hlist _ _ hread

end Keeping

theorem watch_keeps {α : Type} {P : S → Prop} {read : S → Except ClusterError α × S}
    (hread : ∀ s, P s → P (read s).2) (hask : ∀ s, P s → P (server.isCancelled s).2)
    {x : S × Bool} (hx : P x.1) : P (server.watch read x).2.1 := by
  rw [watch]
  split
  · exact hx
  · exact hask _ (hread _ hx)

/-- It is also kept while planning is watched. -/
theorem plan_watched_keeps {P : S → Prop} (hget : ∀ s r, P s → P (server.get s r).2)
    (hlist : ∀ s selector, P s → P (server.list s selector).2)
    (hask : ∀ s, P s → P (server.isCancelled s).2) (b : Build) (o : ApplyOptions) {x : S × Bool}
    (hx : P x.1) : P (server.watched.plan b o x).2.1 := by
  have hgets (x : S × Bool) (r : ObjectRef) (hx : P x.1) : P (server.watched.get x r).2.1 :=
    watch_keeps (fun s => hget s r) hask hx
  have hlists (x : S × Bool) (selector : String) (hx : P x.1) :
      P (server.watched.list x selector).2.1 :=
    watch_keeps (fun s => hlist s selector) hask hx
  exact plan_keeps (P := fun x : S × Bool => P x.1) hgets hlists b o hx

/-- What is planned for a document depends on what is read for it. -/
theorem planDocument_of_get {server' : Server T} {crds : List CrdRef} {d : Document} {t u : T}
    (h : server'.get t (d.liveRef crds) = ((server.get s (d.liveRef crds)).1, u)) (context : Nat) :
    server'.planDocument crds context t d = ((server.planDocument crds context s d).1, u) := by
  rw [planDocument, planDocument, h]

/-- Seen through a function of their states, two servers read the same. -/
structure ReadsAs (server : Server S) (server' : Server T) (f : S → T) : Prop where
  get : ∀ s r, server'.get (f s) r = ((server.get s r).1, f (server.get s r).2)
  list : ∀ s selector,
    server'.list (f s) selector = ((server.list s selector).1, f (server.list s selector).2)

namespace ReadsAs

variable {server' : Server T} {f : S → T} (h : server.ReadsAs server' f)

include h

theorem planDocuments (crds : List CrdRef) (context : Nat) (s : S) (ds : List Document) :
    server'.planDocuments crds context (f s) ds =
      ((server.planDocuments crds context s ds).1,
        f (server.planDocuments crds context s ds).2) := by
  induction ds generalizing s with
  | nil => rfl
  | cons d ds ih =>
      have hd : server'.planDocument crds context (f s) d =
          ((server.planDocument crds context s d).1, f (server.planDocument crds context s d).2) :=
        planDocument_of_get (h.get s _) context
      rw [Server.planDocuments, Server.planDocuments, hd]
      dsimp only
      rw [ih]

theorem plan (b : Build) (o : ApplyOptions) (s : S) :
    server'.plan b o (f s) = ((server.plan b o s).1, f (server.plan b o s).2) := by
  rw [Server.plan, Server.plan, h.planDocuments]
  cases o.pruneSelector with
  | none => rfl
  | some selector => simp only [h.list]

omit h in
theorem watch {α : Type} (read : S → Except ClusterError α × S)
    (read' : T → Except ClusterError α × T)
    (hread : ∀ s, read' (f s) = ((read s).1, f (read s).2))
    (hask : ∀ s, server'.isCancelled (f s) =
      ((server.isCancelled s).1, f (server.isCancelled s).2)) (x : S × Bool) :
    server'.watch read' (Prod.map f id x) =
      ((server.watch read x).1, Prod.map f id (server.watch read x).2) := by
  obtain ⟨s, _ | _⟩ := x
  · simp only [Server.watch, Prod.map, id_eq, hread, hask, Bool.false_eq_true, if_false]
  · rfl

theorem watched (hask : ∀ s, server'.isCancelled (f s) =
      ((server.isCancelled s).1, f (server.isCancelled s).2)) :
    server.watched.ReadsAs server'.watched (Prod.map f id) where
  get x r := watch (server.get · r) (server'.get · r) (fun s => h.get s r) hask x
  list x selector :=
    watch (server.list · selector) (server'.list · selector) (fun s => h.list s selector) hask x

end ReadsAs

section Watched

/-- A read during which it was not seen that applying was cancelled. -/
theorem watch_of_unseen {α : Type} {read : S → Except ClusterError α × S}
    (hask : ∀ s, (server.isCancelled s).2 = s) (h : (server.watch read (s, false)).2.2 = false) :
    server.watch read (s, false) = ((read s).1, (read s).2, false) := by
  rw [watch, if_neg Bool.false_ne_true] at h ⊢
  dsimp only at h ⊢
  rw [h, hask]
  rfl

theorem planDocuments_of_seen (crds : List CrdRef) (context : Nat) (s : S) (ds : List Document) :
    (server.watched.planDocuments crds context (s, true) ds).2 = (s, true) := by
  induction ds with
  | nil => rfl
  | cons d ds ih => exact ih

variable (hask : ∀ s, (server.isCancelled s).2 = s)

include hask

theorem planDocuments_of_unseen {crds : List CrdRef} {context : Nat} {ds : List Document}
    (h : (server.watched.planDocuments crds context (s, false) ds).2.2 = false) :
    server.watched.planDocuments crds context (s, false) ds =
      ((server.planDocuments crds context s ds).1,
        (server.planDocuments crds context s ds).2, false) := by
  induction ds generalizing s with
  | nil => rfl
  | cons d ds ih =>
      change (server.watched.planDocuments crds context
        (server.watched.planDocument crds context (s, false) d).2 ds).2.2 = false at h
      cases hseen : (server.watch (server.get · (d.liveRef crds)) (s, false)).2.2 with
      | true =>
          have hd : (server.watched.planDocument crds context (s, false) d).2 = (_, true) :=
            Prod.ext rfl hseen
          rw [hd, planDocuments_of_seen] at h
          cases h
      | false =>
          have hget : server.watched.get (s, false) (d.liveRef crds) =
              ((server.get s (d.liveRef crds)).1, (server.get s (d.liveRef crds)).2, false) :=
            watch_of_unseen hask hseen
          have hd : server.watched.planDocument crds context (s, false) d =
              ((server.planDocument crds context s d).1,
                (server.planDocument crds context s d).2, false) :=
            planDocument_of_get hget context
          rw [hd] at h
          rw [planDocuments, planDocuments, hd]
          dsimp only
          rw [ih h]

/-- Where it is not seen that applying was cancelled, planning gives what it gives unwatched. -/
theorem plan_of_unseen (h : (server.watched.plan b o (s, false)).2.2 = false) :
    server.watched.plan b o (s, false) =
      ((server.plan b o s).1, (server.plan b o s).2, false) := by
  let read := server.watched.planDocuments (b.documents.filterMap Document.crd?) o.diffContext
    (s, false) b.documents
  rw [plan] at h ⊢
  rw [plan]
  cases hread : read.2.2 with
  | false =>
      rw [planDocuments_of_unseen hask hread] at h ⊢
      cases hselector : o.pruneSelector with
      | none => rfl
      | some selector =>
          rw [hselector] at h
          change (server.watch (server.list · selector) (_, false)).2.2 = false at h
          have hlist : server.watched.list (_, false) selector = _ := watch_of_unseen hask h
          simp only [hlist]
  | true =>
      -- Once it is seen, no read after it forgets it.
      exfalso
      have hx : read.2 = (read.2.1, true) := Prod.ext rfl hread
      cases hselector : o.pruneSelector with
      | none =>
          rw [hselector] at h
          cases hread.symm.trans h
      | some selector =>
          rw [hselector] at h
          change (server.watched.list read.2 selector).2.2 = false at h
          rw [hx] at h
          cases h

end Watched

end Rollout.Server
