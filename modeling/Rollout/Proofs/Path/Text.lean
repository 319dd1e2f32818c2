import Rollout.Path
import Rollout.Proofs.Except
import Rollout.Proofs.Number.Text
/-!
Paths and their texts: the text of a path is read as the path, whatever its keys are.
-/

namespace Rollout.Path

/-- What has a text that is read: there is a segment, and indices are within their limit. -/
structure Readable (p : Path) : Prop where
  ne_nil : p ≠ []
  lt_limit : ∀ i, .index i ∈ p → i < indexLimit

/-- A text is read as these segments, with any fuel that is more than its length. -/
def Reads (keyNext : Bool) (cs : List Char) (p : Path) : Prop :=
  ∀ fuel, cs.length < fuel → segmentsOf fuel keyNext cs = .ok p

/-- A text that adds nothing to a bare key before it. -/
def Opens (cs : List Char) : Prop := ∀ c ∈ cs.head?, isKeyEnd c

variable {k ds cs r : List Char} {p : Path} {s : Segment} {keyNext : Bool} {fuel : Nat}

/-- A quoted key is read up to its quote, however it is escaped. -/
theorem quotedKey_escape (k r : List Char) :
    quotedKey (k.flatMap escapeKey ++ '"' :: ']' :: r) = .ok (k, r) := by
  induction k with
  | nil => rfl
  | cons c k ih =>
      rw [List.flatMap_cons, escapeKey]
      split
      · change (quotedKey (k.flatMap escapeKey ++ '"' :: ']' :: r)).bind _ = _
        rw [ih]
        rfl
      · next hplain =>
          obtain ⟨hslash, hquote⟩ := not_or.mp hplain
          rw [List.append_assoc, List.singleton_append, quotedKey.eq_def]
          split
          · next h => exact absurd (List.cons.inj h).1 hquote
          · next h => exact absurd (List.cons.inj h).1 hquote
          · next h => exact absurd (List.cons.inj h).1 hslash
          · next h => exact absurd (List.cons.inj h).1 hslash
          · next h => cases h
          · next h =>
              obtain ⟨rfl, rfl⟩ := List.cons.inj h
              rw [ih]
              rfl

theorem indexDigits_append (h : ∀ c ∈ ds, c.isDigit) (r : List Char) :
    indexDigits (ds ++ ']' :: r) = .ok (ds, r) := by
  induction ds with
  | nil => rfl
  | cons c ds ih =>
      rw [List.forall_mem_cons] at h
      rw [List.cons_append, indexDigits]
      · rw [h.1, ih h.2]
        rfl
      · rintro rfl
        cases h.1

theorem indexOf_digits {i : Nat} (h : i < indexLimit) : indexOf (Nat.toDigits 10 i) = .ok i := by
  rw [indexOf, Decimal.ofDigitChars_toDigits, List.isEmpty_eq_false_iff.mpr Nat.toDigits_ne_nil,
    if_neg]
  rintro (h' | h')
  · cases h'
  · omega

/-- Reading begins with a step, whatever the text is. -/
theorem Reads.of_succ
    (h : ∀ fuel, cs.length ≤ fuel → segmentsOf (fuel + 1) keyNext cs = .ok p) :
    Reads keyNext cs p := by
  intro fuel hfuel
  cases fuel with
  | zero => cases hfuel
  | succ fuel => exact h fuel (Nat.le_of_lt_succ hfuel)

theorem reads_nil : Reads keyNext [] [] := .of_succ fun _ _ => rfl

theorem Reads.quoted (h : Reads false r p) (k : List Char) :
    Reads keyNext ('[' :: '"' :: k.flatMap escapeKey ++ '"' :: ']' :: r)
      (.key (String.ofList k) :: p) := by
  refine .of_succ fun fuel hfuel => ?_
  have hr : r.length < fuel := by
    simp only [List.length_append, List.length_cons] at hfuel
    omega
  rw [List.cons_append, List.cons_append, segmentsOf, quotedKey_escape]
  change (segmentsOf fuel false r).bind _ = _
  rw [h fuel hr]
  rfl

theorem Reads.index {i : Nat} (h : Reads false r p) (hi : i < indexLimit) :
    Reads keyNext ('[' :: Nat.toDigits 10 i ++ ']' :: r) (.index i :: p) := by
  refine .of_succ fun fuel hfuel => ?_
  have hr : r.length < fuel := by
    simp only [List.length_append, List.length_cons] at hfuel
    omega
  have hdigits (c : Char) (hc : c ∈ Nat.toDigits 10 i) : c.isDigit :=
    Decimal.isDigit_of_mem_toDigits hc
  rw [List.cons_append, segmentsOf]
  · rw [indexDigits_append hdigits]
    change (indexOf (Nat.toDigits 10 i)).bind _ = _
    rw [indexOf_digits hi]
    change (segmentsOf fuel false r).bind _ = _
    rw [h fuel hr]
    rfl
  · intro cs hcs
    -- No index begins like a quoted key.
    obtain ⟨c, ds, hds⟩ := List.exists_cons_of_ne_nil (Nat.toDigits_ne_nil (n := i) (b := 10))
    have hc := hdigits c (hds ▸ List.mem_cons_self)
    rw [hds, List.cons_append] at hcs
    rw [(List.cons.inj hcs).1] at hc
    cases hc

theorem takeWhile_append (hk : ∀ c ∈ k, !isKeyEnd c) (hr : Opens r) :
    (k ++ r).takeWhile (fun c => !isKeyEnd c) = k ∧
      (k ++ r).dropWhile (fun c => !isKeyEnd c) = r := by
  rw [List.takeWhile_append_of_pos hk, List.dropWhile_append_of_pos hk]
  cases r with
  | nil => exact ⟨List.append_nil k, rfl⟩
  | cons c r =>
      have hc : (!isKeyEnd c) = false := by rw [hr c rfl]; rfl
      rw [List.takeWhile_cons_of_neg (by rw [hc]; nofun),
        List.dropWhile_cons_of_neg (by rw [hc]; nofun), List.append_nil]
      exact ⟨rfl, rfl⟩

/-- A bare key is read up to what opens the next segment. -/
theorem Reads.bare (h : Reads false r p) (hne : k ≠ []) (hk : ∀ c ∈ k, !isKeyEnd c)
    (hr : Opens r) : Reads true (k ++ r) (.key (String.ofList k) :: p) := by
  refine .of_succ fun fuel hfuel => ?_
  cases k with
  | nil => exact absurd rfl hne
  | cons c k =>
      have hlength : r.length < fuel := by
        simp only [List.length_append, List.length_cons] at hfuel
        omega
      rw [List.forall_mem_cons] at hk
      obtain ⟨htake, hdrop⟩ := takeWhile_append hk.2 hr
      rw [List.cons_append, segmentsOf]
      · dsimp only
        rw [htake, hdrop, h fuel hlength]
        rfl
      -- A bare key begins with nothing that opens another segment.
      · rintro rfl
        cases hk.1
      · rintro r' rfl
        cases hk.1
      · rintro rfl
        cases hk.1

theorem Reads.dotted (h : Reads true cs p) (hne : cs ≠ []) : Reads false ('.' :: cs) p := by
  refine .of_succ fun fuel hfuel => ?_
  rw [segmentsOf, if_neg Bool.false_ne_true, List.isEmpty_eq_false_iff.mpr hne,
    if_neg Bool.false_ne_true]
  exact h fuel hfuel

theorem opens_segmentText (s : Segment) (r : List Char) : Opens (segmentText false s ++ r) := by
  intro c hc
  cases s with
  | key k =>
      rw [segmentText] at hc
      split at hc
      · cases hc
        rfl
      · cases hc
        rfl
  | index i =>
      cases hc
      rfl

theorem opens_flatMap (p : Path) : Opens (p.flatMap (segmentText false)) := by
  cases p with
  | nil => nofun
  | cons s p => exact opens_segmentText s _

/-- A segment is read as it was written, as the first or after others. -/
theorem reads_segmentText (first : Bool) (hs : ∀ i, s = .index i → i < indexLimit)
    (hr : Opens r) (h : Reads false r p) : Reads first (segmentText first s ++ r) (s :: p) := by
  cases s with
  | key k =>
      rw [segmentText]
      split
      · have hquoted : Reads first _ _ := h.quoted k.toList
        simpa using hquoted
      · next hplain =>
          have hne : k.toList ≠ [] := by
            intro hk
            rw [hk] at hplain
            exact hplain rfl
          have hbare : ∀ c ∈ k.toList, !isKeyEnd c := by
            intro c hc
            rw [Bool.not_eq_true', ← Bool.not_eq_true]
            intro hend
            have hend : c = '.' ∨ c = '[' := by simpa [isKeyEnd] using hend
            refine hplain (Bool.or_eq_true_iff.mpr (.inr (List.any_eq_true.mpr ⟨c, hc, ?_⟩)))
            rcases hend with rfl | rfl <;> rfl
          have hkey := h.bare hne hbare hr
          rw [String.ofList_toList] at hkey
          split
          · next hfirst => rwa [hfirst]
          · next hfirst =>
              rw [Bool.not_eq_true] at hfirst
              rw [hfirst]
              exact hkey.dotted (List.append_ne_nil_of_left_ne_nil hne r)
  | index i =>
      have hindex : Reads first _ _ := h.index (hs i rfl)
      simpa [segmentText] using hindex

theorem reads_flatMap (h : ∀ i, .index i ∈ p → i < indexLimit) :
    Reads false (p.flatMap (segmentText false)) p := by
  induction p with
  | nil => exact reads_nil
  | cons s p ih =>
      rw [List.flatMap_cons]
      refine reads_segmentText false (fun i hi => h i (hi ▸ List.mem_cons_self))
        (opens_flatMap p) (ih fun i hi => h i (List.mem_cons_of_mem s hi))

theorem Readable.reads (h : p.Readable) : Reads true p.textOf p := by
  cases p with
  | nil => exact absurd rfl h.ne_nil
  | cons s p =>
      refine reads_segmentText true (fun i hi => h.lt_limit i (hi ▸ List.mem_cons_self))
        (opens_flatMap p) (reads_flatMap fun i hi => h.lt_limit i (List.mem_cons_of_mem s hi))

theorem parse_eq_ok_iff {text : String} :
    parse text = .ok p ↔ p ≠ [] ∧ segmentsOf (text.toList.length + 1) true text.toList = .ok p := by
  rw [parse]
  constructor
  · intro h
    obtain ⟨q, hq, h⟩ := bind_eq_ok.mp h
    split at h
    · cases h
    · next hne =>
        cases h
        exact ⟨hne, hq⟩
  · rintro ⟨hne, h⟩
    refine bind_eq_ok.mpr ⟨p, h, ?_⟩
    split
    · exact absurd rfl hne
    · rfl

theorem lt_limit_of_indexOf {i : Nat} (h : indexOf ds = .ok i) : i < indexLimit := by
  rw [indexOf] at h
  split at h
  · cases h
  · next hlimit =>
      cases h
      exact Nat.lt_of_not_le (not_or.mp hlimit).2

/-- Indices that are read are within their limit. -/
theorem lt_limit_of_segmentsOf (h : segmentsOf fuel keyNext cs = .ok p) (i : Nat)
    (hi : .index i ∈ p) : i < indexLimit := by
  induction fuel generalizing keyNext cs p with
  | zero =>
      cases h
      cases hi
  | succ fuel ih =>
      rw [segmentsOf.eq_def] at h
      split at h
      · next hfuel => cases hfuel
      · cases h
        cases hi
      · next hfuel =>
          cases hfuel
          split at h
          · cases h
          · split at h
            · cases h
            · exact ih h hi
      · next hfuel =>
          cases hfuel
          obtain ⟨⟨k, r⟩, -, h⟩ := bind_eq_ok.mp h
          obtain ⟨q, hq, h⟩ := bind_eq_ok.mp h
          cases h
          rcases List.mem_cons.mp hi with hi | hi
          · cases hi
          · exact ih hq hi
      · next hfuel =>
          cases hfuel
          obtain ⟨⟨ds, r⟩, -, h⟩ := bind_eq_ok.mp h
          obtain ⟨j, hj, h⟩ := bind_eq_ok.mp h
          obtain ⟨q, hq, h⟩ := bind_eq_ok.mp h
          cases h
          rcases List.mem_cons.mp hi with hi | hi
          · cases hi
            exact lt_limit_of_indexOf hj
          · exact ih hq hi
      · next hfuel =>
          cases hfuel
          split at h
          · cases h
          · obtain ⟨q, hq, h⟩ := bind_eq_ok.mp h
            cases h
            rcases List.mem_cons.mp hi with hi | hi
            · cases hi
            · exact ih hq hi

theorem readable_of_parse {text : String} (h : parse text = .ok p) : p.Readable := by
  obtain ⟨hne, hsegments⟩ := parse_eq_ok_iff.mp h
  exact ⟨hne, lt_limit_of_segmentsOf hsegments⟩

theorem Readable.parse_text_eq (h : p.Readable) : parse p.text = .ok p := by
  refine parse_eq_ok_iff.mpr ⟨h.ne_nil, ?_⟩
  rw [text, String.toList_ofList]
  exact h.reads _ (Nat.lt_succ_self _)

/-- The text of a path is read as the path, if there is a segment and no index is beyond the
limit. All that is read from any text is such a path. -/
theorem parse_text (p : Path) :
    (parse p.text = .ok p ↔ p.Readable) ∧ ∀ text, parse text = .ok p → parse p.text = .ok p :=
  ⟨⟨readable_of_parse, Readable.parse_text_eq⟩, fun _ h => (readable_of_parse h).parse_text_eq⟩

/-- Keys that are empty, or hold dots, brackets, quotes and backslashes, and the last index. -/
theorem parse_text_quoted :
    let p : Path := [.key "", .key "a.b[0]", .index (Nat.pow 2 64 - 1), .key "c\\d", .key "\\\"]"]
    p.Readable ∧ p.text = "[\"\"][\"a.b[0]\"][18446744073709551615].c\\d[\"\\\\\\\"]\"]" ∧
      parse p.text = .ok p ∧ parse "a[\"b\"][007]" = .ok [.key "a", .key "b", .index 7] ∧
      parse (text [.key "a", .key "b", .index 7]) = .ok [.key "a", .key "b", .index 7] := by
  intro p
  have hp : p.Readable := by
    refine ⟨by decide, fun i hi => ?_⟩
    have hi : i = Nat.pow 2 64 - 1 := by simpa [p] using hi
    rw [hi]
    decide
  have hread : parse "a[\"b\"][007]" = .ok [.key "a", .key "b", .index 7] := by decide
  exact ⟨hp, by decide +kernel, (parse_text p).1.mpr hp, hread, (parse_text _).2 _ hread⟩

end Rollout.Path
