import HttpNest.Proof.StartLine

/-!
# Header blocks made of lines

A block is a list of lines with `CRLF` between them and a terminator behind the last. If no
line is empty or has a `CR`, the terminator is found behind the last line
(`find_terminator_lines`) and `SplitString` gives the lines back (`splitString_lines`).

`MakeHeaders` writes such a block when no header has a `CR` (`Unbroken`), and a field that no
header is called is not read from it (`getHeader_parsed`).
-/

namespace HttpNest

open ListSearch HttpParser HttpUtils

/-- Lines that stay lines. -/
def Lines (ls : List Bytes) : Prop := ∀ l ∈ ls, l ≠ [] ∧ 13 ∉ l

variable {l : Bytes} {ls : List Bytes}

theorem Lines.tail (h : Lines (l :: ls)) : Lines ls := fun l' hl => h l' (List.mem_cons_of_mem _ hl)

theorem Lines.head (h : Lines (l :: ls)) : l ≠ [] ∧ 13 ∉ l := h l (List.mem_cons_self ..)

/-- Every line ended, and an empty line: the block and its terminator. -/
theorem flatMap_lines (h : ls ≠ []) :
    ls.flatMap (fun l => l ++ CRLF) ++ CRLF = CRLF.intercalate ls ++ CRLFCRLF := by
  induction ls with
  | nil => exact absurd rfl h
  | cons l ls ih =>
    cases ls with
    | nil => simp [CRLF, CRLFCRLF]
    | cons l' ls =>
      rw [List.flatMap_cons, List.append_assoc, ih (List.cons_ne_nil _ _),
        List.intercalate_cons_cons]
      simp

/-- A block starts with a character that is no `CR`. -/
theorem Lines.block_start (h : Lines (l :: ls)) :
    ∃ c t, CRLF.intercalate (l :: ls) = c :: t ∧ c ≠ 13 := by
  obtain ⟨hne, hcr⟩ := h.head
  obtain ⟨c, t, rfl⟩ := List.exists_cons_of_ne_nil hne
  refine ⟨c, CRLF.intercalate (t :: ls), List.intercalate_cons_cons_left, ?_⟩
  rintro rfl
  exact hcr (List.mem_cons_self ..)

/-- **The terminator is found behind the last line.** -/
theorem find_terminator_lines (h : Lines ls) (hne : ls ≠ []) :
    find CRLFCRLF (CRLF.intercalate ls ++ CRLFCRLF) = some (CRLF.intercalate ls).length := by
  induction ls with
  | nil => exact absurd rfl hne
  | cons l ls ih =>
    cases ls with
    | nil =>
      have hself : find CRLFCRLF (CRLFCRLF ++ []) = some 0 := find_self_append _ _
      rw [List.append_nil] at hself
      rw [List.intercalate_singleton]
      exact find_append_of_not_mem hself h.head.2
    | cons l' ls =>
      have hrest := ih h.tail (List.cons_ne_nil _ _)
      obtain ⟨c, t, hct, hc⟩ := h.tail.block_start
      -- the line end in front is followed by a line, so it does not start the terminator
      have hskip : find CRLFCRLF (CRLF ++ (CRLF.intercalate (l' :: ls) ++ CRLFCRLF)) =
          some (CRLF.length + (CRLF.intercalate (l' :: ls)).length) := by
        refine find_append_of_not_starts hrest fun j hj hp => ?_
        have hj' : j = 0 ∨ j = 1 := by
          have : j < 2 := hj
          omega
        rcases hj' with rfl | rfl
        · rw [hct, List.drop_zero] at hp
          simp only [CRLFCRLF, CRLF, List.cons_append, List.nil_append, List.cons_prefix_cons] at hp
          exact hc hp.2.2.1.symm
        · simp only [CRLFCRLF, CRLF, List.cons_append, List.nil_append, List.drop_one,
            List.tail_cons, List.cons_prefix_cons] at hp
          exact absurd hp.1 (by decide)
      rw [List.intercalate_cons_cons, List.append_assoc, List.append_assoc]
      have hfound : find CRLFCRLF (l ++ (CRLF ++ (CRLF.intercalate (l' :: ls) ++ CRLFCRLF))) =
          some (l.length + (CRLF.length + (CRLF.intercalate (l' :: ls)).length)) :=
        find_append_of_not_mem hskip h.head.2
      rw [hfound, List.length_append, List.length_append, Nat.add_assoc]

/-- **The block is cut into its lines.** -/
theorem splitString_lines (h : Lines ls) :
    StringUtils.splitString (CRLF.intercalate ls) CRLF = ls := by
  induction ls with
  | nil => decide
  | cons l ls ih =>
    obtain ⟨hne, hcr⟩ := h.head
    cases ls with
    | nil => rw [List.intercalate_singleton, splitString_lastLine hcr hne]
    | cons l' ls => rw [List.intercalate_cons_cons, splitString_line hcr, ih h.tail]

/-! ## The block of a request -/

namespace HttpRequest

/-- A header as it is written, without its `CRLF`. -/
def headerLine (e : (_ : Bytes) × Bytes) : Bytes := e.1 ++ ascii ": " ++ e.2

/-- The lines that `MakeHeaders` writes. -/
def lines (r : HttpRequest) : List Bytes := r.startLine :: r.headers.entries.map headerLine

/-- No header breaks its line. -/
def Unbroken (r : HttpRequest) : Prop := ∀ e ∈ r.headers.entries, 13 ∉ e.1 ∧ 13 ∉ e.2

/-- With a line in front. -/
theorem Unbroken.cons_lines {r : HttpRequest} (h : r.Unbroken) {line : Bytes} (hne : line ≠ [])
    (hcr : 13 ∉ line) : Lines (line :: r.headers.entries.map headerLine) := by
  intro l hl
  rcases List.mem_cons.1 hl with rfl | hl
  · exact ⟨hne, hcr⟩
  · obtain ⟨e, he, rfl⟩ := List.mem_map.1 hl
    obtain ⟨hk, hv⟩ := h e he
    have hcolon : 13 ∉ ascii ": " := by decide
    have hlen : 0 < (ascii ": ").length := by decide
    refine ⟨?_, by simp [headerLine, hk, hv, hcolon]⟩
    rw [headerLine, ← List.length_pos_iff]
    simp only [List.length_append]
    omega

theorem Unbroken.lines {r : HttpRequest} (h : r.Unbroken) : Lines r.lines :=
  h.cons_lines r.startLine_ne_nil r.cr_not_mem_startLine

/-- The block without its terminator. -/
def block (r : HttpRequest) : Bytes := CRLF.intercalate r.lines

/-- The lines as they are written. -/
theorem append_headerLines (r : HttpRequest) (line : Bytes) :
    line ++ CRLF ++ r.headerLines =
      CRLF.intercalate (line :: r.headers.entries.map headerLine) ++ CRLFCRLF := by
  rw [← flatMap_lines (List.cons_ne_nil _ _), List.flatMap_cons, List.flatMap_map, headerLines,
    List.append_assoc, List.append_assoc]
  simp only [headerLine, List.append_assoc]

theorem makeHeaders_eq_block {r : HttpRequest} (h : r.isRequest = true) :
    r.makeHeaders = r.block ++ CRLFCRLF := by
  rw [makeHeaders_eq h, append_headerLines, block, lines]

theorem Unbroken.find_terminator {r : HttpRequest} (h : r.Unbroken) :
    find CRLFCRLF (r.block ++ CRLFCRLF) = some r.block.length :=
  find_terminator_lines h.lines (List.cons_ne_nil _ _)

/-- The request that the block describes. -/
def parsed (r : HttpRequest) : HttpRequest := r.lines.foldl addField r.reread

theorem Unbroken.blockRequest_eq {r : HttpRequest} (h : r.Unbroken) :
    blockRequest r.block = some r.parsed := by
  have hreq : decide (((methodWord r.method).map toLower).take 4 ≠ ascii "http") = true :=
    decide_eq_true (not_mem_methodWord r.method).2.2.2
  rw [blockRequest, block, splitString_lines h.lines]
  simp only [HttpRequest.lines, r.splitString_startLine, hreq]
  rfl

/-- No colon in the start line. -/
theorem keyValue_startLine (r : HttpRequest) : keyValue r.startLine = none := by
  have h1 : 58 ∉ methodWord r.method := by cases r.method <;> decide +kernel
  have h2 : 58 ∉ urlEncode r.target :=
    fun h => (plain_of_mem_urlEncode h).not_delimiter.2.2.2.2 rfl
  have h3 : 58 ∉ versionWord r.version := by cases r.version <;> decide +kernel
  rw [keyValue, Option.map_eq_none_iff, find_singleton_none]
  simp [startLine, h1, h2, h3]

theorem keyValue_headerLine {e : (_ : Bytes) × Bytes} (h : 58 ∉ e.1) :
    keyValue (headerLine e) = some (e.1.map toLower, 32 :: e.2) := by
  have hline : headerLine e = e.1 ++ 58 :: 32 :: e.2 := by
    have hcolon : ascii ": " = [58, 32] := by decide
    rw [headerLine, hcolon]
    simp
  rw [keyValue, hline, find_singleton_append h]
  simp

/-- A header is read with the blank in front of its value. -/
theorem filterMap_headerLine {es : List ((_ : Bytes) × Bytes)} (h : ∀ e ∈ es, 58 ∉ e.1) :
    (es.map headerLine).filterMap keyValue = es.map fun e => (e.1.map toLower, 32 :: e.2) := by
  rw [List.filterMap_map]
  refine (List.filterMap_congr fun e he => ?_).trans (congrFun List.filterMap_eq_map _)
  exact keyValue_headerLine (h e he)

/-- **The headers come back**, each with the blank in front of its value, whatever the start line
and the order of iteration. -/
theorem lookup_foldl_headerLine {r r₀ : HttpRequest} {line : Bytes} (hline : keyValue line = none)
    (hnil : r₀.headers = ∅) (hname : ∀ e ∈ r.headers.entries, 58 ∉ e.1 ∧ e.1.map toLower = e.1)
    (field : Bytes) :
    ((line :: r.headers.entries.map headerLine).foldl addField r₀).headers.lookup field =
      (r.headers.lookup field).map (32 :: ·) := by
  have hfields : (line :: r.headers.entries.map headerLine).filterMap keyValue =
      r.headers.entries.map fun e => (e.1, 32 :: e.2) := by
    rw [List.filterMap_cons_none hline, filterMap_headerLine fun e he => (hname e he).1]
    exact List.map_congr_left fun e he => by rw [(hname e he).2]
  have hlast := Assignments.lastValue_entries r.headers (32 :: ·) field
  rw [← hfields, Assignments.lastValue] at hlast
  rw [lookup_foldl_addField, hlast, hnil, AList.lookup_empty, Option.or_none]

/-- A field that no header is called is not read. -/
theorem getHeader_parsed {r : HttpRequest} {field : Bytes}
    (hcolon : ∀ e ∈ r.headers.entries, 58 ∉ e.1)
    (h : ∀ e ∈ r.headers.entries, e.1.map toLower ≠ field.map toLower) :
    r.parsed.getHeader field = [] := by
  have hfields : r.lines.filterMap keyValue =
      r.headers.entries.map fun e => (e.1.map toLower, 32 :: e.2) := by
    rw [lines, List.filterMap_cons_none r.keyValue_startLine, filterMap_headerLine hcolon]
  have hnone : (r.lines.filterMap keyValue).reverse.lookup (field.map toLower) = none := by
    rw [List.lookup_eq_none_iff]
    intro p hp
    rw [hfields, List.mem_reverse] at hp
    obtain ⟨e, he, rfl⟩ := List.mem_map.1 hp
    exact bne_iff_ne.2 (Ne.symm (h e he))
  rw [getHeader, parsed, lookup_foldl_addField, hnone, reread, (startRequest_fresh _ _ _ _).1,
    AList.lookup_empty]
  rfl

end HttpRequest

end HttpNest
