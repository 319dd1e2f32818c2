import Mathlib.Data.List.Chain
import Mathlib.Data.List.Infix
import Rollout.Proofs.Manifest.Rendered
/-!
Cutting a stream at its separator lines loses nothing of it. The pieces and what is dropped between
them are the stream, and each piece is a slice between two characters, counted in bytes.
-/

namespace Rollout

namespace Text

/-- Lines of one text: a line feed ends each of them but the last, and stands nowhere else. -/
structure Lined (ls : List (List Char)) : Prop where
  line : ∀ l ∈ ls, l ≠ [] ∧ '\n' ∉ l.dropLast
  feeds : ls.IsChain fun l _ => l.getLast? = some '\n'

variable {l a b : List Char} {ls ms : List (List Char)}

theorem lined_nil : Lined [] := ⟨fun _ h => absurd h List.not_mem_nil, .nil⟩

theorem Lined.left (h : Lined (ls ++ ms)) : Lined ls where
  line l hl := h.line l (List.mem_append_left ms hl)
  feeds := h.feeds.left_of_append

theorem Lined.right (h : Lined (ls ++ ms)) : Lined ms where
  line l hl := h.line l (List.mem_append_right ls hl)
  feeds := h.feeds.right_of_append

theorem Lined.tail (h : Lined (l :: ls)) : Lined ls where
  line m hm := h.line m (List.mem_cons_of_mem l hm)
  feeds := h.feeds.tail

/-- What a line ends with is a line as well. -/
theorem Lined.rest_of_line (h : Lined ((a ++ b) :: ls)) (hb : b ≠ []) : Lined (b :: ls) := by
  have hlast : (a ++ b).getLast? = b.getLast? := by
    rw [List.getLast?_append, List.getLast?_eq_some_getLast hb, Option.some_or]
  refine ⟨?_, ?_⟩
  · intro l hl
    rcases List.mem_cons.mp hl with rfl | hl
    · obtain ⟨-, hfeed⟩ := h.line _ List.mem_cons_self
      rw [List.dropLast_append_of_ne_nil hb, List.mem_append] at hfeed
      exact ⟨hb, fun hm => hfeed (.inr hm)⟩
    · exact h.line l (List.mem_cons_of_mem _ hl)
  · have hfeeds := h.feeds
    rw [List.isChain_cons, hlast] at hfeeds
    exact List.isChain_cons.mpr hfeeds

theorem lined_segments (cs : List Char) : Lined (segments cs) := by
  induction cs with
  | nil => exact lined_nil
  | cons c cs ih =>
      rw [segments]
      split
      · next hc =>
          subst hc
          refine ⟨?_, List.isChain_cons.mpr ⟨fun _ _ => rfl, ih.feeds⟩⟩
          intro l hl
          rcases List.mem_cons.mp hl with rfl | hl
          · simp
          · exact ih.line l hl
      · next hc =>
          cases hs : segments cs with
          | nil => exact ⟨by simp, .singleton _⟩
          | cons s ss =>
              rw [hs] at ih
              obtain ⟨hs, hfeed⟩ := ih.line s List.mem_cons_self
              refine ⟨?_, ?_⟩
              · intro l hl
                rcases List.mem_cons.mp hl with rfl | hl
                · rw [List.dropLast_cons_of_ne_nil hs]
                  exact ⟨List.cons_ne_nil c s,
                    List.not_mem_cons_of_ne_of_not_mem (Ne.symm hc) hfeed⟩
                · exact ih.line l (List.mem_cons_of_mem _ hl)
              · have hlast : (c :: s).getLast? = s.getLast? := by
                  rw [List.getLast?_cons, List.getLast?_eq_some_getLast hs, Option.getD_some]
                have hfeeds := ih.feeds
                rw [List.isChain_cons] at hfeeds
                exact List.isChain_cons.mpr (hlast ▸ hfeeds)

theorem segments_line (hl : l ≠ []) (hfeed : '\n' ∉ l.dropLast) : segments l = [l] := by
  induction l with
  | nil => exact absurd rfl hl
  | cons c l ih =>
      rcases eq_or_ne l [] with rfl | hne
      · rw [segments]
        split <;> rfl
      · rw [List.dropLast_cons_of_ne_nil hne, List.mem_cons, not_or] at hfeed
        rw [segments, if_neg (Ne.symm hfeed.1), ih hne hfeed.2]

/-- Lines are found again in the text that they make up. -/
theorem Lined.segments_flatten (h : Lined ls) : segments ls.flatten = ls := by
  induction ls with
  | nil => rfl
  | cons l ls ih =>
      obtain ⟨hl, hfeed⟩ := h.line l List.mem_cons_self
      have hrest := ih h.tail
      cases ls with
      | nil => rw [List.flatten_singleton, segments_line hl hfeed]
      | cons m ls =>
          have hlast : l.getLast? = some '\n' := (List.isChain_cons_cons.mp h.feeds).1
          rw [List.flatten_cons, segments_append hlast, segments_line hl hfeed, hrest,
            List.singleton_append]

/-- The size of a text in bytes. -/
def bytes (cs : List Char) : Nat := (String.ofList cs).utf8ByteSize

theorem bytes_append (a b : List Char) : bytes (a ++ b) = bytes a + bytes b := by
  rw [bytes, String.ofList_append, String.utf8ByteSize_append]
  rfl

end Text

namespace Manifest

open Text (bytes segments Lined)

/-- A line that separates documents: but for blanks at its end it is `---` or `...`, or it begins
with `---` and a space. -/
def Separates (line : List Char) : Prop :=
  Text.trimEnd line = "---".toList ∨ Text.trimEnd line = "...".toList ∨
    "--- ".toList <+: Text.trimEnd line

instance : DecidablePred Separates := fun _ => inferInstanceAs (Decidable (_ ∨ _ ∨ _))

/-- The separator lines of a text. -/
def separators (text : List Char) : List (List Char) := (segments text).filter (Separates ·)

/-- What is dropped of a separator line: the mark before content, or else all of it. -/
def dropped (line : List Char) : List Char := if opensContent line then contentMark else line

/-- What is left of a separator line, and opens the next piece. -/
def opening (line : List Char) : Option (List Char) :=
  if opensContent line then some (line.drop contentMark.length) else none

section Line

variable {line : List Char}

theorem separates_iff : Separates line ↔ isSeparator line = true ∨ opensContent line = true := by
  rw [isSeparator, Bool.or_eq_true, decide_eq_true_iff, decide_eq_true_iff, opensContent,
    List.isPrefixOf_iff_prefix, or_assoc]
  rfl

theorem opensContent_of_isSeparator (h : isSeparator line = true) : opensContent line = false := by
  rw [isSeparator, Bool.or_eq_true, decide_eq_true_iff, decide_eq_true_iff] at h
  rcases h with h | h <;> rw [opensContent, h] <;> rfl

theorem eq_of_opensContent (h : opensContent line = true) :
    line = contentMark ++ line.drop contentMark.length := by
  have hmark := (List.isPrefixOf_iff_prefix.mp h).trans (Text.trimEnd_isPrefix line)
  exact (List.prefix_append_drop hmark)

/-- The space of the mark is not at the end of the line. -/
theorem drop_ne_nil_of_opensContent (h : opensContent line = true) :
    line.drop contentMark.length ≠ [] := by
  intro hnil
  have hline := eq_of_opensContent h
  rw [hnil, List.append_nil] at hline
  rw [hline] at h
  exact absurd h (by decide)

theorem dropped_append_opening (line : List Char) :
    dropped line ++ (opening line).toList.flatten = line := by
  rw [dropped, opening]
  split
  · next h =>
      rw [Option.toList_some, List.flatten_singleton]
      exact (eq_of_opensContent h).symm
  · rw [Option.toList_none, List.flatten_nil, List.append_nil]

end Line

/-- The lines of each piece; those of the first one begin with the given ones. -/
def chunks (opened : List (List Char)) : List (List Char) → List (List (List Char))
  | [] => [opened]
  | line :: rest =>
    if Separates line then opened :: chunks (opening line).toList rest
    else chunks (opened ++ [line]) rest

section Chunks

variable {opened lines : List (List Char)}

theorem length_chunks (opened lines : List (List Char)) :
    (chunks opened lines).length = (lines.filter (Separates ·)).length + 1 := by
  induction lines generalizing opened with
  | nil => rfl
  | cons line rest ih =>
      rw [chunks]
      by_cases h : Separates line
      · simp [h, ih]
      · simp [h, ih]

/-- The pieces, each with what is dropped behind it, are the text. -/
theorem flatten_chunks (opened lines : List (List Char)) :
    (List.zipWith (· ++ ·) ((chunks opened lines).map List.flatten)
      ((lines.filter (Separates ·)).map dropped ++ [[]])).flatten =
        opened.flatten ++ lines.flatten := by
  induction lines generalizing opened with
  | nil => simp [chunks]
  | cons line rest ih =>
      rw [chunks]
      by_cases h : Separates line
      · have hline := dropped_append_opening line
        simp only [h, if_true, List.filter_cons, decide_true, List.map_cons, List.cons_append,
          List.zipWith_cons_cons, List.flatten_cons, ih]
        rw [List.append_assoc, ← List.append_assoc (dropped line), hline]
      · simp [h, ih]

/-- Lines that begin with what is left of a separator line; no other one separates. -/
def Begins (left : Option (List Char)) (ls : List (List Char)) : Prop :=
  ∃ rest, ls = left.toList ++ rest ∧ ∀ l ∈ rest, ¬ Separates l

theorem begins_chunks {left : Option (List Char)} (h : Begins left opened) :
    List.Forall₂ Begins (left :: (lines.filter (Separates ·)).map opening)
      (chunks opened lines) := by
  induction lines generalizing left opened with
  | nil => exact .cons h .nil
  | cons line rest ih =>
      rw [chunks]
      by_cases hline : Separates line
      · have hopening : Begins (opening line) (opening line).toList :=
          ⟨[], (List.append_nil _).symm, fun _ hl => absurd hl List.not_mem_nil⟩
        simp only [hline, if_true, List.filter_cons, decide_true, List.map_cons]
        exact .cons h (ih hopening)
      · obtain ⟨more, rfl, hmore⟩ := h
        simp only [hline, if_false, List.filter_cons, decide_false, Bool.false_eq_true]
        apply ih
        refine ⟨more ++ [line], List.append_assoc .., ?_⟩
        intro l hl
        rcases List.mem_append.mp hl with hl | hl
        · exact hmore l hl
        · rwa [List.mem_singleton.mp hl]

theorem lined_chunks (h : Lined (opened ++ lines)) : ∀ ls ∈ chunks opened lines, Lined ls := by
  induction lines generalizing opened with
  | nil =>
      intro ls hls
      rw [List.append_nil] at h
      rwa [List.mem_singleton.mp hls]
  | cons line rest ih =>
      rw [chunks]
      split
      · intro ls hls
        rcases List.mem_cons.mp hls with rfl | hls
        · exact h.left
        · refine ih ?_ ls hls
          rw [opening]
          split
          · next hopens =>
              have hline := h.right
              rw [eq_of_opensContent hopens] at hline
              exact hline.rest_of_line (drop_ne_nil_of_opensContent hopens)
          · exact h.right.tail
      · apply ih
        rwa [List.append_assoc]

end Chunks

/-- Where the present document begins, and where the next line does. -/
structure Place where
  start : Nat
  offset : Nat

namespace Place

variable (size : List Char → Nat)

/-- What reading a line makes of a place, if lines have such sizes. -/
def move (p : Place) (line : List Char) : Place :=
  let next := p.offset + size line
  if isSeparator line then ⟨next, next⟩
  else if opensContent line then ⟨p.offset + size contentMark, next⟩
  else ⟨p.start, next⟩

/-- The places at which a slice is taken: in front of separator lines, and at the end. -/
def cuts (p : Place) : List (List Char) → List Place
  | [] => [p]
  | line :: rest =>
    if Separates line then p :: cuts (p.move size line) rest else cuts (p.move size line) rest

variable {size}

/-- A place in a text, behind which are `rest`: both positions are between characters, and what is
between them is `piece`. -/
def Within (size : List Char → Nat) (text rest : List Char) (p : Place) (piece : List Char) :
    Prop :=
  ∃ before, text = before ++ piece ++ rest ∧ p.start = size before ∧
    p.offset = size (before ++ piece)

variable {text piece rest line : List Char} {p : Place}

theorem Within.slice (h : Within List.length text rest p piece) :
    (text.take p.offset).drop p.start = piece := by
  obtain ⟨before, rfl, hstart, hoffset⟩ := h
  rw [hstart, hoffset, List.take_left, List.drop_left]

section Additive

variable (hsize : ∀ a b, size (a ++ b) = size a + size b)

include hsize

theorem Within.le (h : Within size text rest p piece) :
    p.start ≤ p.offset ∧ p.offset + size rest = size text := by
  obtain ⟨before, rfl, hstart, hoffset⟩ := h
  rw [hstart, hoffset, hsize _ rest, hsize before piece]
  exact ⟨Nat.le_add_right .., rfl⟩

/-- Reading a line keeps the place within the text. -/
theorem Within.move {opened : List (List Char)}
    (h : Within size text (line ++ rest) p opened.flatten) :
    Within size text rest (p.move size line)
      (if Separates line then (opening line).toList else opened ++ [line]).flatten := by
  obtain ⟨before, rfl, hstart, hoffset⟩ := h
  rw [Place.move, hoffset, ← hsize]
  split
  · next hseparator =>
      rw [if_pos (separates_iff.mpr (.inl hseparator)), opening,
        opensContent_of_isSeparator hseparator]
      exact ⟨before ++ opened.flatten ++ line, by simp, rfl, by simp⟩
  · split
    · next hopens =>
        rw [if_pos (separates_iff.mpr (.inr hopens)), opening, if_pos hopens]
        have hline := eq_of_opensContent hopens
        refine ⟨before ++ opened.flatten ++ contentMark, ?_, (hsize ..).symm, ?_⟩
        · rw [Option.toList_some, List.flatten_singleton, List.append_assoc _ contentMark, ← hline,
            List.append_assoc, List.append_assoc, List.append_assoc]
        · rw [Option.toList_some, List.flatten_singleton, List.append_assoc _ contentMark, ← hline]
    · next hseparator hopens =>
        rw [if_neg fun h => (separates_iff.mp h).elim hseparator hopens]
        exact ⟨before, by simp, hstart, by simp⟩

/-- Every slice is taken at a place within the text, and is the piece that it should be. -/
theorem forall₂_cuts {opened lines : List (List Char)}
    (h : Within size text lines.flatten p opened.flatten) :
    List.Forall₂ (fun c ls => ∃ rest, Within size text rest c (List.flatten ls)) (p.cuts size lines)
      (chunks opened lines) := by
  induction lines generalizing opened p with
  | nil => exact .cons ⟨_, h⟩ .nil
  | cons line rest ih =>
      have hnext := Within.move hsize (List.flatten_cons ▸ h)
      rw [cuts, chunks]
      split
      · next hline =>
          rw [if_pos hline] at hnext
          exact .cons ⟨_, h⟩ (ih hnext)
      · next hline =>
          rw [if_neg hline] at hnext
          exact ih hnext

/-- However many lines were read, the place is within the text. -/
theorem within_foldl {opened pre post : List (List Char)}
    (h : Within size text (pre ++ post).flatten p opened.flatten) :
    ∃ piece, Within size text post.flatten (pre.foldl (Place.move size) p) piece := by
  induction pre generalizing opened p with
  | nil => exact ⟨_, h⟩
  | cons line pre ih =>
      apply ih
      exact Within.move hsize (List.flatten_cons ▸ h)

end Additive

end Place

open Place

/-- The slices are those between the places at which they are taken, counted in characters. -/
theorem scan_eq_map_cuts {text : List Char} {p : Place} {lines : List (List Char)}
    (h : p.offset + lines.flatten.length = text.length) :
    scan text p.start p.offset lines =
      (p.cuts List.length lines).map fun c => (text.take c.offset).drop c.start := by
  induction lines generalizing p with
  | nil =>
      rw [List.flatten_nil, List.length_nil, Nat.add_zero] at h
      rw [scan, cuts, List.map_singleton, h, List.take_length]
  | cons line rest ih =>
      have hnext : (p.move List.length line).offset = p.offset + line.length := by
        rw [Place.move]
        split <;> [rfl; split <;> rfl]
      have hrest := ih (p := p.move List.length line) (by
        rw [hnext, Nat.add_assoc, ← List.length_append, ← List.flatten_cons, h])
      rw [scan, cuts]
      by_cases hseparator : isSeparator line = true
      · rw [if_pos hseparator, if_pos (separates_iff.mpr (.inl hseparator)), List.map_cons, ← hrest,
          Place.move, if_pos hseparator]
      · by_cases hopens : opensContent line = true
        · rw [if_neg hseparator, if_pos hopens, if_pos (separates_iff.mpr (.inr hopens)),
            List.map_cons, ← hrest, Place.move, if_neg hseparator, if_pos hopens]
        · rw [if_neg hseparator, if_neg hopens,
            if_neg fun h => (separates_iff.mp h).elim hseparator hopens, ← hrest, Place.move,
            if_neg hseparator, if_neg hopens]

/-- The start of a text is a place within it. -/
theorem within_start {size : List Char → Nat} (hsize : ∀ a b, size (a ++ b) = size a + size b)
    (text : List Char) : Within size text (segments text).flatten ⟨0, 0⟩ (List.flatten []) := by
  have hnil : 0 = size [] := by
    have h := hsize [] []
    rw [List.append_nil] at h
    omega
  exact ⟨[], (Text.flatten_segments text).symm, hnil, hnil⟩

theorem split_eq (text : List Char) :
    split text = (chunks [] (segments text)).map List.flatten := by
  have hcuts := forall₂_cuts (fun _ _ => List.length_append) (within_start (fun _ _ =>
    List.length_append) text)
  have hlength : 0 + (segments text).flatten.length = text.length := by
    rw [Text.flatten_segments, Nat.zero_add]
  rw [split, scan_eq_map_cuts (p := ⟨0, 0⟩) hlength, ← List.forall₂_eq_eq_eq,
    List.forall₂_map_left_iff, List.forall₂_map_right_iff]
  refine hcuts.imp fun c ls h => ?_
  obtain ⟨rest, hc⟩ := h
  exact hc.slice

/-- What a text is cut into. -/
structure Pieces (text : List Char) (pieces : List (List Char)) : Prop where
  /-- However many lines were read, what is sliced next does not begin behind its end, nor end
  behind the text. -/
  within : ∀ pre post, segments text = pre ++ post →
    (pre.foldl (move bytes) ⟨0, 0⟩).start ≤ (pre.foldl (move bytes) ⟨0, 0⟩).offset ∧
      (pre.foldl (move bytes) ⟨0, 0⟩).offset ≤ bytes text
  /-- Each piece is the slice between two positions in bytes, both between characters. -/
  slices : List.Forall₂ (fun c piece => ∃ rest, Within bytes text rest c piece)
    (cuts bytes ⟨0, 0⟩ (segments text)) pieces
  length : pieces.length = (separators text).length + 1
  /-- The pieces, with what is dropped between them, are the text. -/
  rejoined :
    (List.zipWith (· ++ ·) pieces ((separators text).map dropped ++ [[]])).flatten = text
  /-- Among the lines of a piece is no separator line; but what is left of the separator line in
  front of it may look like one. -/
  begins : List.Forall₂ (fun left piece => Begins left (segments piece))
    (none :: (separators text).map opening) pieces

/-- Every text is cut so. -/
theorem pieces_split (text : List Char) : Pieces text (split text) := by
  rw [split_eq]
  refine ⟨?within, ?slices, ?length, ?rejoined, ?begins⟩
  case within =>
    intro pre post hlines
    have hstart := within_start Text.bytes_append text
    rw [hlines] at hstart
    obtain ⟨piece, hwithin⟩ := within_foldl Text.bytes_append hstart
    obtain ⟨hle, hoffset⟩ := hwithin.le Text.bytes_append
    exact ⟨hle, by omega⟩
  case slices =>
    rw [List.forall₂_map_right_iff]
    exact forall₂_cuts Text.bytes_append (within_start Text.bytes_append text)
  case length => rw [List.length_map, length_chunks, separators]
  case rejoined =>
    rw [separators, flatten_chunks, List.flatten_nil, List.nil_append, Text.flatten_segments]
  case begins =>
    have hlines : ((chunks [] (segments text)).map List.flatten).map segments =
        chunks [] (segments text) := by
      rw [List.map_map]
      refine (List.map_congr_left fun ls hls => ?_).trans (List.map_id _)
      exact (lined_chunks (Text.lined_segments text) ls hls).segments_flatten
    have hfirst : Begins none [] := ⟨[], rfl, fun _ hl => absurd hl List.not_mem_nil⟩
    have hbegins : List.Forall₂ Begins _ (chunks [] (segments text)) := begins_chunks hfirst
    rw [← hlines, List.forall₂_map_right_iff] at hbegins
    exact hbegins

/-- What stands behind a mark may itself look like a separator line. -/
example : split "a\n--- ---\nb\n... \n".toList = ["a\n".toList, "---\nb\n".toList, []] := by decide

end Manifest

end Rollout
