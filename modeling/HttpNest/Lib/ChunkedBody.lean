import HttpNest.Lib.CNumeral

/-!
# The chunked coding of HTTP/1.1

`ChunkedBody data body` says that `body` is a body in the chunked coding and that `data` are
its chunks: a size in hexadecimal digits, `CRLF`, as many bytes, `CRLF`, for each of them,
and `0`, `CRLF`, `CRLF`. There are no extensions and no trailer.

The line end behind a size is the first one there is, and a size denotes one number; so a
body is cut in one way only (`ChunkedBody.front`).
-/

open CNumeral

/-- The byte pair that ends a line. -/
def ChunkedBody.lineEnd : List UInt8 := [13, 10]

open ChunkedBody in
inductive ChunkedBody : List (List UInt8) → List UInt8 → Prop
  | last : ChunkedBody [] ([48] ++ lineEnd ++ lineEnd)
  | chunk {size data rest : List UInt8} {ds : List (List UInt8)} : size ≠ [] → IsHex size →
    data ≠ [] → value 16 (digits 16 size) = data.length → ChunkedBody ds rest →
    ChunkedBody (data :: ds) (size ++ lineEnd ++ data ++ lineEnd ++ rest)

namespace ChunkedBody

theorem cr_not_mem {size : List UInt8} (h : IsHex size) : (13 : UInt8) ∉ size :=
  fun hmem => (of_hex_digit (h 13 hmem)).2.2.2.2.2 rfl

/-- A line without a `CR` is determined by what starts with it. -/
theorem line_inj {line line' rest rest' : List UInt8} (h : (13 : UInt8) ∉ line)
    (h' : (13 : UInt8) ∉ line') (heq : line ++ lineEnd ++ rest = line' ++ lineEnd ++ rest') :
    line = line' ∧ rest = rest' := by
  induction line generalizing line' with
  | nil =>
    cases line' with
    | nil => exact ⟨rfl, by simpa [lineEnd] using heq⟩
    | cons c line' =>
      have hc : 13 = c := (List.cons.inj heq).1
      exact absurd (hc ▸ List.mem_cons_self ..) h'
  | cons c line ih =>
    cases line' with
    | nil =>
      have hc : c = 13 := (List.cons.inj heq).1
      exact absurd (hc ▸ List.mem_cons_self ..) h
    | cons c' line' =>
      obtain ⟨hc, heq⟩ := List.cons.inj heq
      have hmem : ∀ {a : UInt8} {l : List UInt8}, (13 : UInt8) ∉ a :: l → (13 : UInt8) ∉ l :=
        fun hno hin => hno (List.mem_cons_of_mem _ hin)
      obtain ⟨hline, hrest⟩ := ih (hmem h) (hmem h') heq
      exact ⟨by rw [hc, hline], hrest⟩

/-- **The first chunk is where its size says**, whatever is behind it: a body that starts
with the size of a chunk and as many bytes goes on with a line end. -/
theorem front {size data rest : List UInt8} {ds : List (List UInt8)} (hsize : IsHex size)
    (hdata : data ≠ []) (hval : value 16 (digits 16 size) = data.length)
    (h : ChunkedBody ds (size ++ lineEnd ++ data ++ rest)) : lineEnd <+: rest := by
  generalize hbody : size ++ lineEnd ++ data ++ rest = body at h
  cases h with
  | last =>
    -- the size is zero, but there is a byte of data
    have hbody' : size ++ lineEnd ++ (data ++ rest) = [48] ++ lineEnd ++ lineEnd := by
      simpa [List.append_assoc] using hbody
    obtain ⟨rfl, -⟩ := line_inj (cr_not_mem hsize) (by decide) hbody'
    have hzero : value 16 (digits 16 [48]) = 0 := by decide
    rw [hzero] at hval
    exact absurd (List.length_eq_zero_iff.1 hval.symm) hdata
  | @chunk size' data' rest' ds _ hsize' _ hval' _ =>
    have hbody' : size ++ lineEnd ++ (data ++ rest) =
        size' ++ lineEnd ++ (data' ++ (lineEnd ++ rest')) := by
      simpa [List.append_assoc] using hbody
    obtain ⟨rfl, heq⟩ := line_inj (cr_not_mem hsize) (cr_not_mem hsize') hbody'
    have hlen : data.length = data'.length := hval.symm.trans hval'
    obtain ⟨-, hrest⟩ := List.append_inj heq hlen
    rw [hrest]
    exact List.prefix_append _ _

end ChunkedBody
