import Mathlib.Data.List.Forall2
import Mathlib.Data.List.Nodup
import Rollout.Manifest
import Rollout.Proofs.Document.Acceptance
/-!
Rendered documents are read back from the stream, if each text alone is read back and no line of
it separates documents.
-/

namespace Rollout

theorem mapM_eq_ok_iff {ε α β : Type} {f : α → Except ε β} {l : List α} {bs : List β} :
    l.mapM f = .ok bs ↔ List.Forall₂ (fun a b => f a = .ok b) l bs := by
  induction l generalizing bs with
  | nil =>
      rw [List.mapM_nil, List.forall₂_nil_left_iff]
      exact ⟨fun h => (Except.ok.inj h).symm, fun h => congrArg _ h.symm⟩
  | cons a l ih =>
      rw [List.mapM_cons, bind_eq_ok, List.forall₂_cons_left_iff]
      refine exists_congr fun b => ?_
      rw [bind_eq_ok]
      constructor
      · rintro ⟨hb, cs, hcs, ⟨⟩⟩
        exact ⟨cs, hb, ih.mp hcs, rfl⟩
      · rintro ⟨cs, hb, hcs, rfl⟩
        exact ⟨hb, cs, ih.mpr hcs, rfl⟩

namespace Text

/-- A line ends where its line feed is, whatever text follows. -/
theorem segments_append_feed (cs rest : List Char) :
    segments (cs ++ '\n' :: rest) = segments (cs ++ ['\n']) ++ segments rest := by
  induction cs with
  | nil => rfl
  | cons c cs ih =>
      rw [List.cons_append, List.cons_append, segments, segments]
      split
      · rw [ih, List.cons_append]
      · have hlast : segments (cs ++ ['\n']) ≠ [] := by
          intro h
          have hflat := flatten_segments (cs ++ ['\n'])
          rw [h] at hflat
          exact List.append_ne_nil_of_right_ne_nil cs (List.cons_ne_nil _ _) hflat.symm
        obtain ⟨l, ls, hls⟩ := List.exists_cons_of_ne_nil hlast
        rw [ih, hls]
        rfl

theorem segments_append {cs : List Char} (h : cs.getLast? = some '\n') (rest : List Char) :
    segments (cs ++ rest) = segments cs ++ segments rest := by
  obtain ⟨init, rfl⟩ := List.getLast?_eq_some_iff.mp h
  rw [List.append_assoc]
  exact segments_append_feed init rest

theorem trimEnd_isPrefix (cs : List Char) : trimEnd cs <+: cs := by
  have h := List.dropWhile_suffix isBlank (l := cs.reverse)
  rw [trimEnd, ← List.reverse_suffix, List.reverse_reverse]
  exact h

end Text

namespace Yaml

/-- The tokens in order, if the splices were found in the order of their positions. -/
def Scanner.woven? (s : Scanner) : Option (List Token) :=
  if s.splices.reverse.Pairwise fun a b => a.1 < b.1 then
    some (finish.weave 0 s.tokens.reverse s.splices.reverse)
  else none

theorem Scanner.finish_of_woven? {s : Scanner} {ts : List Token} (h : s.woven? = some ts) :
    s.finish = ts := by
  rw [woven?, Option.ite_none_right_eq_some, Option.some_inj] at h
  obtain ⟨hascending, rfl⟩ := h
  have hsorted : (s.splices.mergeSort fun a b => a.1 ≤ b.1).Pairwise fun a b => a.1 ≤ b.1 := by
    refine (List.pairwise_mergeSort (fun a b c hab hbc => ?_) (fun a b => ?_) _).imp
      of_decide_eq_true
    · exact decide_eq_true (Nat.le_trans (of_decide_eq_true hab) (of_decide_eq_true hbc))
    · simpa using Nat.le_total a.1 b.1
  have hinj := List.inj_on_of_nodup_map
    (List.pairwise_map.mpr (hascending.imp fun hlt => Nat.ne_of_lt hlt))
  have hperm := (List.mergeSort_perm s.splices fun a b => a.1 ≤ b.1).trans
    (List.reverse_perm s.splices).symm
  have heq := hperm.eq_of_pairwise (fun a b ha hb hab hba =>
    hinj (hperm.mem_iff.mp ha) hb (Nat.le_antisymm hab hba)) hsorted
    (hascending.imp fun hlt => Nat.le_of_lt hlt)
  rw [finish, heq]

theorem tokens_eq_ok {text : List Char} {ts : List Token} (hread : text.all isReadable = true)
    (h : (Scanner.run (text.length + 1) { cursor := { rest := text } }).map Scanner.woven? =
      .ok (some ts)) : tokens text = .ok ts := by
  obtain ⟨s, hrun, hwoven⟩ := map_eq_ok.mp h
  rw [tokens, hread, hrun]
  exact congrArg Except.ok (Scanner.finish_of_woven? hwoven)

/-- A text is read in three steps: its tokens, their nodes, the tree of these. -/
theorem read_eq_ok {text : String} {ts : List Token} {d : Parsed} {t : Tree}
    (hts : tokens text.toList = .ok ts) (hd : readDocument ts = .ok (some d))
    (ht : (valueOf d maxDepth d.root).run' 0 = .ok t) : read text = .ok t :=
  bind_eq_ok.mpr ⟨ts, hts, bind_eq_ok.mpr ⟨some d, hd, ht⟩⟩

end Yaml

namespace Manifest

/-- The line between two documents. -/
def separator : List Char := ['-', '-', '-', '\n']

/-- A text whose lines all belong to one document. -/
structure Whole (text : List Char) : Prop where
  feed : text.getLast? = some '\n'
  line : ∀ l ∈ Text.segments text, isSeparator l = false ∧ opensContent l = false

variable {text : List Char} {lines rest : List (List Char)} {texts : List (List Char)}
  {start offset : Nat}

/-- Lines of one document are passed over. -/
theorem scan_append (h : ∀ l ∈ lines, isSeparator l = false ∧ opensContent l = false) :
    scan text start offset (lines ++ rest) =
      scan text start (offset + lines.flatten.length) rest := by
  induction lines generalizing offset with
  | nil => rfl
  | cons l lines ih =>
      rw [List.forall_mem_cons] at h
      rw [List.cons_append, scan, h.1.1, h.1.2, if_neg Bool.false_ne_true,
        if_neg Bool.false_ne_true, ih h.2, List.flatten_cons, List.length_append, Nat.add_assoc]

theorem scan_separator (text : List Char) (start offset : Nat) (rest : List (List Char)) :
    scan text start offset (separator :: rest) =
      (text.take offset).drop start :: scan text (offset + 4) (offset + 4) rest := by
  rw [scan]
  exact if_pos (by decide)

/-- Offsets are counted from the start of the stream, so the induction is on the texts behind
some text `before` that was cut already. -/
theorem scan_intercalate (hne : texts ≠ []) (h : ∀ t ∈ texts, Whole t) (before : List Char) :
    scan (before ++ separator.intercalate texts) before.length before.length
      (Text.segments (separator.intercalate texts)) = texts := by
  induction texts generalizing before with
  | nil => exact absurd rfl hne
  | cons t texts ih =>
      rw [List.forall_mem_cons] at h
      cases texts with
      | nil =>
          rw [List.intercalate_singleton, ← List.append_nil (Text.segments t), scan_append h.1.line,
            scan, List.drop_left]
      | cons u texts =>
          have hnext := ih (List.cons_ne_nil u texts) h.2 (before ++ t ++ separator)
          rw [List.append_assoc, List.append_assoc, List.length_append, List.length_append] at hnext
          rw [List.intercalate_cons_cons, List.append_assoc, Text.segments_append h.1.feed,
            Text.segments_append rfl, scan_append h.1.line, Text.flatten_segments]
          refine (scan_separator ..).trans (congr (congrArg List.cons ?_) ?_)
          · rw [← List.append_assoc, ← List.length_append, List.take_left, List.drop_left]
          · rw [Nat.add_assoc]
            exact hnext

/-- Splitting undoes joining. -/
theorem split_intercalate (hne : texts ≠ []) (h : ∀ t ∈ texts, Whole t) :
    split (separator.intercalate texts) = texts := scan_intercalate hne h []

variable {d : Document} {docs es : List Document} {index : Nat}

/-- What is asked of the text of a document: it ends with a line feed, there is more in it than
blank lines and comments, no line is a separator or begins like one with content behind it, and it
reads back as the same tree. -/
structure Readable (d : Document) : Prop where
  feed : d.toYaml.toList.getLast? = some '\n'
  content : ∃ l ∈ Text.lines d.toYaml.toList,
    Text.trim l ≠ [] ∧ (Text.trim l).head? ≠ some '#'
  plain : ∀ l ∈ Text.segments d.toYaml.toList, Text.trimEnd l ≠ "---".toList ∧
    Text.trimEnd l ≠ "...".toList ∧ ¬ "--- ".toList <+: l
  read_eq : Yaml.read d.toYaml = .ok d.tree

theorem Readable.whole (h : Readable d) : Whole d.toYaml.toList where
  feed := h.feed
  line l hl := by
    obtain ⟨hdash, hdots, hmark⟩ := h.plain l hl
    constructor
    · rw [isSeparator, Bool.or_eq_false_iff, decide_eq_false_iff_not, decide_eq_false_iff_not]
      exact ⟨hdash, hdots⟩
    · rw [opensContent, Bool.eq_false_iff]
      intro hopens
      exact hmark ((List.isPrefixOf_iff_prefix.mp hopens).trans (Text.trimEnd_isPrefix l))

theorem Readable.not_isBlank (h : Readable d) : isBlank d.toYaml.toList = false := by
  obtain ⟨l, hl, htrim, hhead⟩ := h.content
  refine List.all_eq_false.mpr ⟨l, hl, ?_⟩
  rw [Bool.or_eq_true, List.isEmpty_iff, isComment, decide_eq_true_iff]
  exact not_or.mpr ⟨htrim, hhead⟩

/-- The piece of a document gives a document, if its tree is accepted. -/
theorem Readable.parsePiece_eq_some_iff (h : Readable d) {e : Document} :
    parsePiece index d.toYaml.toList = .ok (some e) ↔ Document.ofTree d.tree = .ok e := by
  rw [parsePiece, h.not_isBlank, if_neg Bool.false_ne_true, String.ofList_toList, h.read_eq]
  dsimp only
  split
  · next hnull =>
      refine iff_of_false nofun fun hok => ?_
      obtain ⟨⟨_, _, hroot⟩, -⟩ := Document.ofTree_eq_ok_iff.mp hok
      have hmapping := hroot.isMapping
      cases hv : d.tree.1 with
      | null =>
          rw [hv] at hmapping
          cases hmapping
      | _ =>
          rw [hv] at hnull
          cases hnull
  · rw [map_eq_ok]
    constructor
    · rintro ⟨e, he, ⟨⟩⟩
      exact mapError_eq_ok.mp he
    · intro he
      exact ⟨e, mapError_eq_ok.mpr he, rfl⟩

theorem toList_render (docs : List Document) : (render docs).toList =
    separator.intercalate (docs.map fun d => d.toYaml.toList) := by
  rw [render, String.toList_intercalate, List.map_map]
  rfl

theorem split_render (hne : docs ≠ []) (h : ∀ d ∈ docs, Readable d) :
    split (render docs).toList = docs.map fun d => d.toYaml.toList := by
  rw [toList_render]
  exact split_intercalate (mt List.map_eq_nil_iff.mp hne)
    (List.forall_mem_map.mpr fun d hd => (h d hd).whole)

/-- Each document is read from its piece, and pieces without one are left out. -/
theorem parse_render_eq_ok_iff (hne : docs ≠ []) (h : ∀ d ∈ docs, Readable d) :
    parse (render docs) = .ok es ↔ ∃ read,
      List.Forall₂ (fun d e? => parsePiece d.2 d.1.toYaml.toList = .ok e?) docs.zipIdx read ∧
        read.filterMap id = es := by
  rw [parse, split_render hne h, List.zipIdx_map, bind_eq_ok]
  refine exists_congr fun read => and_congr ?_ ?_
  · rw [mapM_eq_ok_iff, List.forall₂_map_left_iff]
    rfl
  · exact ⟨Except.ok.inj, congrArg _⟩

theorem parse_render_nil : parse (render []) = .ok [] := by rfl

/-- Documents that are accepted are read back, with nothing found out about them yet. -/
theorem parse_render (h : ∀ d ∈ docs, Readable d)
    (haccepted : ∀ d ∈ docs, ∃ e, Document.ofTree d.tree = .ok e) :
    parse (render docs) = .ok (docs.map Document.unmarked) := by
  rcases eq_or_ne docs [] with rfl | hne
  · exact parse_render_nil
  refine (parse_render_eq_ok_iff hne h).mpr
    ⟨docs.zipIdx.map fun d => some d.1.unmarked, ?_, ?_⟩
  · rw [List.forall₂_map_right_iff, List.forall₂_same]
    intro d hd
    have hmem : d.1 ∈ docs := List.fst_mem_of_mem_zipIdx hd
    obtain ⟨e, he⟩ := haccepted d.1 hmem
    rw [(h d.1 hmem).parsePiece_eq_some_iff, he, (Document.ofTree_eq_ok_iff.mp he).2]
    rfl
  · conv => rhs; rw [← List.zipIdx_map_fst 0 docs]
    rw [List.map_map, List.filterMap_map]
    exact congrFun List.filterMap_eq_map _

/-- If no document is missing, all were accepted. -/
theorem accepted_of_parse_render (h : ∀ d ∈ docs, Readable d) (hok : parse (render docs) = .ok es)
    (hlength : es.length = docs.length) (hd : d ∈ docs) : ∃ e, Document.ofTree d.tree = .ok e := by
  obtain ⟨read, hread, rfl⟩ := (parse_render_eq_ok_iff (List.ne_nil_of_mem hd) h).mp hok
  have hreadlength : docs.length = read.length := by rw [← hread.length_eq, List.length_zipIdx]
  have hall : ∀ e? ∈ read, e?.isSome :=
    List.filterMap_length_eq_length.mp (hlength.trans hreadlength)
  obtain ⟨i, hi, rfl⟩ := List.mem_iff_getElem.mp hd
  have hpiece := hread.get (by rwa [List.length_zipIdx]) (hreadlength ▸ hi)
  rw [List.get_eq_getElem, List.get_eq_getElem, List.getElem_zipIdx] at hpiece
  obtain ⟨e, he⟩ := Option.isSome_iff_exists.mp (hall _ (List.getElem_mem (hreadlength ▸ hi)))
  rw [he] at hpiece
  exact ⟨e, (h _ hd).parsePiece_eq_some_iff.mp hpiece⟩

/-- Rendered documents whose texts are readable are read back, the same number in the same order
and with the same trees and keys, if and only if each tree is accepted as a document. -/
theorem parse_render_iff (h : ∀ d ∈ docs, Readable d) :
    (∃ es, parse (render docs) = .ok es ∧
      List.Forall₂ (fun e d => e.root = d.root ∧ e.key = d.key) es docs) ↔
    ∀ d ∈ docs, ∃ e, Document.ofTree d.tree = .ok e := by
  constructor
  · rintro ⟨es, hok, hsame⟩ d hd
    exact accepted_of_parse_render h hok hsame.length_eq hd
  · intro haccepted
    refine ⟨_, parse_render h haccepted, ?_⟩
    rw [List.forall₂_map_left_iff, List.forall₂_same]
    exact fun d _ => ⟨rfl, rfl⟩

section ConfigMap

open Yaml (Token Parsed)

/-- The tokens of a config map of which nothing but its name is given. -/
def configMapTokens (name : Token) : List Token :=
  [.blockMapping, .key, .scalar true "apiVersion", .value, .scalar true "v1",
    .key, .scalar true "kind", .value, .scalar true "ConfigMap",
    .key, .scalar true "metadata", .value,
    .blockMapping, .key, .scalar true "name", .value, name, .blockEnd, .blockEnd]

def configMapParsed (plain : Bool) (name : String) : Parsed where
  root := .mapping none [(.scalar none true "apiVersion", .scalar none true "v1"),
    (.scalar none true "kind", .scalar none true "ConfigMap"),
    (.scalar none true "metadata",
      .mapping none [(.scalar none true "name", .scalar none plain name)])]
  anchored := []
  events := 11

theorem readDocument_configMapTokens (plain : Bool) (name : String) :
    Yaml.readDocument (configMapTokens (.scalar plain name)) =
      .ok (some (configMapParsed plain name)) := by cbv

theorem readable_configMap : Readable (.new "v1" "ConfigMap" "settings") := by
  have htext : (Document.new "v1" "ConfigMap" "settings").toYaml =
      "apiVersion: v1\nkind: ConfigMap\nmetadata:\n  name: settings\n" := by decide
  have htokens : Yaml.tokens
      "apiVersion: v1\nkind: ConfigMap\nmetadata:\n  name: settings\n".toList =
      .ok (configMapTokens (.scalar true "settings")) :=
    Yaml.tokens_eq_ok (by decide) (by decide +kernel)
  refine ⟨?feed, ?content, ?plain, ?read_eq⟩ <;> rw [htext]
  case read_eq =>
    exact Yaml.read_eq_ok htokens (readDocument_configMapTokens ..) (by decide +kernel)
  all_goals decide

theorem parse_render_configMap :
    let d := Document.new "v1" "ConfigMap" "settings"
    (∀ e ∈ [d, d], Readable e) ∧ ∃ es, parse (render [d, d]) = .ok es ∧
      List.Forall₂ (fun e d => e.root = d.root ∧ e.key = d.key) es [d, d] := by
  intro d
  have hd : ∀ e ∈ [d, d], e = d := by simp
  have hreadable : ∀ e ∈ [d, d], Readable e := fun e he => hd e he ▸ readable_configMap
  refine ⟨hreadable, (parse_render_iff hreadable).mpr fun e he => ⟨d, ?_⟩⟩
  rw [hd e he]
  rfl

theorem readable_nameless : Readable (.new "v1" "ConfigMap" "") := by
  have htext : (Document.new "v1" "ConfigMap" "").toYaml =
      "apiVersion: v1\nkind: ConfigMap\nmetadata:\n  name: ''\n" := by decide
  have htokens : Yaml.tokens
      "apiVersion: v1\nkind: ConfigMap\nmetadata:\n  name: ''\n".toList =
      .ok (configMapTokens (.scalar false "")) :=
    Yaml.tokens_eq_ok (by decide) (by decide +kernel)
  refine ⟨?feed, ?content, ?plain, ?read_eq⟩ <;> rw [htext]
  case read_eq =>
    exact Yaml.read_eq_ok htokens (readDocument_configMapTokens ..) (by decide +kernel)
  all_goals decide

/-- A document can be made without a name, but it is not read back. -/
theorem parse_render_nameless :
    let d := Document.new "v1" "ConfigMap" ""
    (∀ e ∈ [d], Readable e) ∧ ¬ ∃ es, parse (render [d]) = .ok es ∧
      List.Forall₂ (fun e d => e.root = d.root ∧ e.key = d.key) es [d] := by
  intro d
  have hreadable : ∀ e ∈ [d], Readable e := List.forall_mem_singleton.mpr readable_nameless
  refine ⟨hreadable, ?_⟩
  rintro ⟨es, hok, hsame⟩
  obtain ⟨e, he⟩ := accepted_of_parse_render hreadable hok hsame.length_eq List.mem_cons_self
  have hrefused : Document.ofTree d.tree = .error .badName := rfl
  rw [hrefused] at he
  cases he

end ConfigMap

end Manifest

end Rollout
