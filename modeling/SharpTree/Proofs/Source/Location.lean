import SharpTree.Proofs.Source.Places

/-!
# Where errors are reported

The place of an error is told as a line and a column. For an error in the text,
these are the place right after some of its bytes, and on one of its lines
(`syntax_error_location`). What is wrong with a tree is told with such a place
only as long as the outermost node has not been read; after that the line is 0
(`mismatch_location`).
-/

namespace SharpTree

open Json (Value Blanks)
open Source (Shows Located)

/-! ## Lines and columns -/

namespace Location

/-- The place right after some bytes: as many lines end before it as there are line feeds, and its column counts the
bytes after the last of them. -/
structure Follows (place : Location) (bytes : List UInt8) : Prop where
  line : place.line = 1 + bytes.count 10
  column : ∃ before own, bytes = before ++ own ∧ (∀ b ∈ before.getLast?, b = 10) ∧ 10 ∉ own ∧
    place.column = own.length

/-- The place is on a line of some bytes, and not beyond its end. -/
def On (place : Location) (bytes : List UInt8) : Prop :=
  1 ≤ place.line ∧ ∃ line, (bytes.splitOn 10)[place.line - 1]? = some line ∧ place.column ≤ line.length

theorem follows_after (bytes : List UInt8) : (after bytes).Follows bytes where
  line := rfl
  column := by
    refine ⟨(bytes.reverse.dropWhile (· != 10)).reverse, (bytes.reverse.takeWhile (· != 10)).reverse, ?_, ?_, ?_,
      ?_⟩
    · rw [← List.reverse_append, List.takeWhile_append_dropWhile, List.reverse_reverse]
    · intro b hb
      rw [List.getLast?_reverse] at hb
      have hhead := List.head?_dropWhile_not (· != 10) bytes.reverse
      rw [Option.mem_def.mp hb] at hhead
      simpa using hhead
    · intro hmem
      have htake := List.all_eq_true.mp List.all_takeWhile _ (List.mem_reverse.mp hmem)
      simp at htake
    · rw [List.length_reverse]
      rfl

theorem getElem?_splitOn {before : List UInt8} (h : ∀ b ∈ before.getLast?, b = 10) (tail : List UInt8) :
    ((before ++ tail).splitOn 10)[before.count 10]? = (tail.splitOn 10)[0]? := by
  induction before with
  | nil => rfl
  | cons b before ih =>
    rw [List.cons_append, List.splitOn_cons_eq_if_modifyHead]
    cases before with
    | nil =>
      have hb : b = 10 := h b rfl
      simp [hb]
    | cons c before =>
      rw [List.getLast?_cons_cons] at h
      rw [← ih h]
      by_cases hb : b = 10
      · simp [hb]
      · -- the byte joins the first line, and the line in question is further down
        have hcount : (c :: before).count 10 ≠ 0 := by
          rw [Ne, List.count_eq_zero, Classical.not_not]
          have hlast := List.getLast?_eq_some_getLast (List.cons_ne_nil c before)
          have hten := h _ hlast
          rw [← hten]
          exact List.getLast_mem _
        rw [if_neg (by simpa using hb), List.getElem?_modifyHead, List.count_cons_of_ne hb, if_neg hcount]

theorem exists_line {own : List UInt8} (h : 10 ∉ own) (rest : List UInt8) :
    ∃ line, ((own ++ rest).splitOn 10)[0]? = some line ∧ own.length ≤ line.length := by
  induction own with
  | nil =>
    have hlen : 0 < (rest.splitOn 10).length := List.length_pos_iff.mpr (List.splitOnP_ne_nil _ _)
    exact ⟨_, List.getElem?_eq_getElem hlen, Nat.zero_le _⟩
  | cons b own ih =>
    rw [List.mem_cons, not_or] at h
    obtain ⟨line, hline, hle⟩ := ih h.2
    refine ⟨b :: line, ?_, Nat.succ_le_succ hle⟩
    rw [List.cons_append, List.splitOn_cons_eq_if_modifyHead, if_neg (by simpa using Ne.symm h.1),
      List.getElem?_modifyHead, if_pos rfl, hline]
    rfl

theorem Follows.on {place : Location} {bytes : List UInt8} (h : place.Follows bytes) (rest : List UInt8) :
    place.On (bytes ++ rest) := by
  obtain ⟨before, own, rfl, hlast, hown, hcolumn⟩ := h.column
  have hline : place.line = 1 + before.count 10 := by
    rw [h.line, List.count_append, List.count_eq_zero.mpr hown, Nat.add_zero]
  obtain ⟨line, hsplit, hle⟩ := exists_line hown rest
  refine ⟨by omega, line, ?_, hcolumn ▸ hle⟩
  rw [hline, Nat.add_sub_cancel_left, List.append_assoc, getElem?_splitOn hlast, hsplit]

theorem leaving_eq {text : List Char} {i left : Nat} (h : i + left = byteCount text) :
    leaving text left = after ((utf8 text).take i) := by
  unfold leaving
  rw [← h, Nat.add_sub_cancel]

end Location

/-! ## Errors -/

def ParseError.ofCause : Cause → Location → ParseError
  | .grammar p, place => .grammar p place
  | .tooDeep, place => .tooDeep place
  | .mismatch m, place => .mismatch m (some place)

theorem ParseError.location?_ofCause (cause : Cause) (place : Location) :
    (ofCause cause place).location? = some place := by
  cases cause <;> rfl

/-- The error has a cause that shows at its place. -/
def ParseError.Shown (text : List Char) (e : ParseError) (cause : Cause) : Prop :=
  ∃ place i, e = .ofCause cause place ∧ i ≤ (utf8 text).length ∧ Shows text cause i ∧
    place.Follows ((utf8 text).take i) ∧ place.On (utf8 text)

theorem ParseError.shown_ofFault {text : List Char} {f : Fault} (h : Located text f) :
    (ofFault text f).Shown text f.cause := by
  obtain ⟨i, hshows, hleft⟩ := h
  have hfollows := Location.follows_after ((utf8 text).take i)
  have hon := hfollows.on ((utf8 text).drop i)
  rw [List.take_append_drop] at hon
  refine ⟨_, i, ?_, ?_, hshows, hfollows, hon⟩
  · rw [← Location.leaving_eq hleft]
    unfold ofFault
    cases f.cause <;> rfl
  · rw [length_utf8]
    exact hshows.le

/-- A value that can be that of an outermost node stands at the front of a text. -/
def Source.Opens (text : List Char) (v : Value) : Prop :=
  v.Tagged ∧ v.nesting < maxNesting ∧ ∃ b w rest, Blanks b ∧ v.Spells w ∧ text = b ++ (w ++ rest)

theorem Source.opens_iff {text : List Char} {v : Value} :
    Opens text v ↔ ∃ rest, root (maxNesting - 2) text = .ok (v, rest) := by
  constructor
  · intro h
    obtain ⟨htagged, hnesting, b, w, rest, hb, hw, rfl⟩ := h
    exact ⟨rest, root_read hb hw (by unfold maxNesting at *; omega) htagged⟩
  · intro h
    obtain ⟨rest, h⟩ := h
    obtain ⟨htagged, b, w, hb, hw, hnesting, ht⟩ := root_spells h
    exact ⟨htagged, by unfold maxNesting at *; omega, b, w, rest, hb, hw, ht⟩

namespace Node

variable {source : String} {e : ParseError}

/-- The reasons not to read a text: it is empty, it has a fault at a place, or the value at its front is no tree. -/
theorem parse_eq_error (h : parse source = .error e) :
    e = .empty ∨ (∃ m v, Source.Opens source.toList v ∧ ofValue v = .error m ∧ e = .mismatch m none) ∨
      ∃ cause, e.Shown source.toList cause ∧
        (cause = .grammar .trailingCharacters ∨ ∀ v, ¬ Source.Opens source.toList v) := by
  simp only [parse] at h
  split at h
  · cases h
    exact .inl rfl
  · have hstays := Source.root_stays (maxNesting - 2) source.toList
    cases hroot : Source.root (maxNesting - 2) source.toList with
    | error f =>
      rw [hroot] at h hstays
      cases h
      refine .inr (.inr ⟨f.cause, ParseError.shown_ofFault hstays, .inr fun v hv => ?_⟩)
      obtain ⟨rest, hok⟩ := Source.opens_iff.mp hv
      rw [hroot] at hok
      cases hok
    | ok p =>
      obtain ⟨v, rest⟩ := p
      rw [hroot] at h hstays
      simp only at h
      cases hv : ofValue v with
      | error m =>
        rw [hv] at h
        cases h
        exact .inr (.inl ⟨m, v, Source.opens_iff.mpr ⟨rest, hroot⟩, hv, rfl⟩)
      | ok n =>
        rw [hv] at h
        simp only at h
        cases hfinish : Source.finish rest with
        | ok u =>
          rw [hfinish] at h
          cases h
        | error f =>
          rw [hfinish] at h
          cases h
          obtain ⟨hcause, hlocated⟩ := Source.finish_eq_error hfinish
          exact .inr (.inr ⟨f.cause, ParseError.shown_ofFault (hlocated.mono hstays), .inl hcause⟩)

/-- A text that is no JSON, or nests too deeply, is refused at a place inside it: at its end, or right after a byte
that is to blame. -/
theorem syntax_error_location (h : parse source = .error e)
    (he : (∃ p place, e = .grammar p place) ∨ ∃ place, e = .tooDeep place) :
    ∃ cause place i, e = .ofCause cause place ∧ e.location? = some place ∧ i ≤ (utf8 source.toList).length ∧
      Shows source.toList cause i ∧ place.Follows ((utf8 source.toList).take i) ∧
        place.On (utf8 source.toList) := by
  rcases parse_eq_error h with rfl | ⟨m, v, -, -, rfl⟩ | ⟨cause, ⟨place, i, rfl, hshown⟩, -⟩
  · simp at he
  · simp at he
  · exact ⟨cause, place, i, rfl, ParseError.location?_ofCause cause place, hshown⟩

def missingColon : String :=
  "\x7b\"type\":\"Ast\",\n\"\u00e9\" 1\x7d"

theorem syntax_error_location_colon : parse missingColon = .error (.grammar .noColon ⟨2, 6⟩) ∧
    ∃ cause place i, ParseError.grammar .noColon ⟨2, 6⟩ = .ofCause cause place ∧
      Shows missingColon.toList cause i ∧ place.On (utf8 missingColon.toList) := by
  have hparse : parse missingColon = .error (.grammar .noColon ⟨2, 6⟩) := by decide +kernel
  obtain ⟨cause, place, i, he, -, -, hshows, -, hon⟩ := syntax_error_location hparse (.inl ⟨_, _, rfl⟩)
  exact ⟨hparse, cause, place, i, he, hshows, hon⟩

/-- What is wrong with a tree is told with a place in the text if the outermost node could not be read. Otherwise
the place is line 0, column 0. -/
theorem mismatch_location {m : Mismatch} {place : Option Location} (h : parse source = .error (.mismatch m place)) :
    ∃ l, (ParseError.mismatch m place).location? = some l ∧
      ((∃ v, Source.Opens source.toList v ∧ ofValue v = .error m ∧ l = ⟨0, 0⟩) ∨
        (∀ v, ¬ Source.Opens source.toList v) ∧ ∃ i, i ≤ (utf8 source.toList).length ∧
          Shows source.toList (.mismatch m) i ∧ l.Follows ((utf8 source.toList).take i) ∧
            l.On (utf8 source.toList)) := by
  rcases parse_eq_error h with he | ⟨m', v, hv, hm, he⟩ | ⟨cause, ⟨l, i, he, hshown⟩, hopens⟩
  · cases he
  · cases he
    exact ⟨⟨0, 0⟩, rfl, .inl ⟨v, hv, hm, rfl⟩⟩
  · cases cause with
    | grammar p => cases he
    | tooDeep => cases he
    | mismatch m' =>
      cases he
      rcases hopens with hopens | hopens
      · cases hopens
      · exact ⟨l, rfl, .inr ⟨hopens, i, hshown⟩⟩

def numberedName : String :=
  "\x7b\"type\":\"Identifier\",\"value\":12\x7d"

theorem parse_numberedName :
    parse numberedName = .error (.mismatch (.unexpected (.number (.int 12)) .text) none) := by
  decide +kernel

theorem mismatch_location_unknown : ∃ v, Source.Opens numberedName.toList v ∧
    ofValue v = .error (.unexpected (.number (.int 12)) .text) := by
  obtain ⟨l, hl, h⟩ := mismatch_location parse_numberedName
  cases hl
  rcases h with ⟨v, hv, hm, -⟩ | ⟨-, i, -, -, -, hon⟩
  · exact ⟨v, hv, hm⟩
  · cases hon.1

theorem mismatch_location_zero : ¬ ∀ (source : String) (m : Mismatch) (place : Option Location) (l : Location),
    parse source = .error (.mismatch m place) → (ParseError.mismatch m place).location? = some l →
      1 ≤ l.line ∧ l.line ≤ ((utf8 source.toList).splitOn 10).length := by
  intro h
  have hline := (h _ _ _ _ parse_numberedName rfl).1
  cases hline

end Node

end SharpTree
