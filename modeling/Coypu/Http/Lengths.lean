import Coypu.Http.Opening
import Coypu.Library.CInt

/-!
# The lengths of the strings of a head

`HandleHTTP` and `AddHeader` cut strings out of a line by positions that they have searched for, and
compute the lengths in unsigned arithmetic. A length is right where a search is successful and there
is enough of the line behind it; nobody looks whether that is so. `firstLineCuts` and `headerCuts`
are the strings and the differences of one line, `handleCuts` those of a whole `Read`.

The source takes the first line of each `Read` for the request or response line, and each other line
for a header.
-/

set_option autoImplicit false

namespace Coypu

open FlatMemory Transport WebSocket

/-- The strings that are cut out of a line, and the unsigned differences that are computed for it,
each as its two operands. -/
structure Cuts where
  length : ℕ
  strings : List Region
  differences : List (ℕ × ℕ)
deriving DecidableEq

/-- The strings lie in the line, and no difference goes around. -/
def Cuts.Inside (cuts : Cuts) : Prop :=
  (∀ r ∈ cuts.strings, r.Inside cuts.length) ∧ ∀ d ∈ cuts.differences, d.2 ≤ d.1

instance (cuts : Cuts) : Decidable cuts.Inside := inferInstanceAs (Decidable (_ ∧ _))

namespace Head

/-! ## One line -/

/-- `std::string::npos`. -/
def npos : ℕ := 2 ^ 64 - 1

/-- `std::string::find` of a space, from a position on. -/
def findSpace (raw : List UInt8) (start : ℕ) : ℕ :=
  match (raw.drop start).findIdx? (· = space) with
  | none => npos
  | some n => start + n

/-- The first line: the string without its last byte, and its parts by the positions of two
spaces. -/
def firstLineCuts (line : List UInt8) : Cuts :=
  let size := CInt.toUnsigned 64 ((line.length : ℤ) - 1)
  let raw := line.take size
  let a := findSpace raw 0
  let b := findSpace raw ((a + 1) % 2 ^ 64)
  let start := (a + 1) % 2 ^ 64
  let rest := (b + 1) % 2 ^ 64
  if 0 < a ∧ 0 < b then
    ⟨line.length,
      [⟨0, size⟩, ⟨0, min a size⟩,
        ⟨start, min (CInt.toUnsigned 64 ((b : ℤ) - a - 1)) (size - start)⟩, ⟨rest, size - rest⟩],
      [(line.length, 1), (b, a), (CInt.toUnsigned 64 ((b : ℤ) - a), 1)]⟩
  else ⟨line.length, [⟨0, size⟩], [(line.length, 1)]⟩

/-- A header: its name, and its value behind the colon and a space, if there is one. -/
def headerCuts (header : List UInt8) : Cuts :=
  let len := header.length
  let i := header.findIdx (· = colon)
  let skip := if header.getD (i + 1) 0 = space then 2 else 1
  if 0 < i ∧ i < len then
    ⟨len, [⟨0, i⟩, ⟨i + skip, CInt.toUnsigned 32 ((len : ℤ) - i - 1 - skip)⟩],
      [(len, i), (CInt.toUnsigned 32 ((len : ℤ) - i), 1),
        (CInt.toUnsigned 32 ((len : ℤ) - i - 1), skip)]⟩
  else ⟨len, [], []⟩

/-- The loop of `HandleHTTP` again, for the strings of its lines. A line with a length that is too
large ends it. -/
def handleCuts (server : Bool) : ℕ → Bool → BipBuf .uint64 UInt8 → Head → List Cuts
  | 0, _, _, _ => []
  | fuel + 1, is_uri, httpBuf, head =>
    match (httpBuf.find lf).ret with
    | none => []
    | some offset =>
      if offset = 1 then []
      else if maxHeaderSize - 1 ≤ offset then []
      else
        match (httpBuf.pop (offset + 1) false).ret with
        | none => []
        | some header =>
          if is_uri then
            firstLineCuts (header.take offset) ::
              if offset = 0 then []
              else handleCuts server fuel false (httpBuf.pop (offset + 1) false).buf
                (head.firstLine server (header.take (offset - 1)))
          else
            headerCuts (header.take offset) ::
              match head.addHeader (header.take offset) with
              | none => []
              | some (_, head') => handleCuts server fuel false
                (httpBuf.pop (offset + 1) false).buf head'

/-- The strings of the lines in the buffer. -/
def cutsOf (server : Bool) : Bool → Head → List (List UInt8) → List Cuts
  | _, _, [] => []
  | is_uri, head, line :: ls =>
    if ls = [] then []
    else if line.length = 1 then []
    else if maxHeaderSize - 1 ≤ line.length then []
    else if is_uri then
      firstLineCuts line :: if line = [] then [] else cutsOf server false
        (head.firstLine server line.dropLast) ls
    else
      headerCuts line ::
        match head.addHeader line with
        | none => []
        | some (_, head') => cutsOf server false head' ls

/-- A value begins in the line, behind the colon and the space. -/
def HeaderFits (header : List UInt8) : Prop :=
  let i := header.findIdx (· = colon)
  0 < i → i < header.length → i + 1 + (if header.getD (i + 1) 0 = space then 2 else 1)
    ≤ header.length

instance (header : List UInt8) : Decidable (HeaderFits header) := by
  unfold HeaderFits
  infer_instance

/-- The whole lines that are looked at: those in front of the first that has one byte, or too
many. -/
def handled (ls : List (List UInt8)) : List (List UInt8) :=
  ls.dropLast.takeWhile fun line ↦ decide (line.length ≠ 1 ∧ line.length < maxHeaderSize - 1)

/-- There is a space in the first of the lines, in front of its last byte, and the others are
headers that fit. -/
def LinesFit : Bool → List (List UInt8) → Prop
  | _, [] => True
  | true, line :: ls => space ∈ line.dropLast ∧ ∀ header ∈ ls, HeaderFits header
  | false, ls => ∀ header ∈ ls, HeaderFits header

instance : (is_uri : Bool) → (ls : List (List UInt8)) → Decidable (LinesFit is_uri ls)
  | true, [] => .isTrue trivial
  | false, [] => .isTrue trivial
  | true, line :: ls =>
    inferInstanceAs (Decidable (space ∈ line.dropLast ∧ ∀ header ∈ ls, HeaderFits header))
  | false, line :: ls => inferInstanceAs (Decidable (∀ header ∈ line :: ls, HeaderFits header))

/-! ## The positions -/

theorem findSpace_of_notMem {raw : List UInt8} (h : space ∉ raw) (start : ℕ) :
    findSpace raw start = npos := by
  have hnone : (raw.drop start).findIdx? (· = space) = none :=
    List.findIdx?_eq_none_iff.mpr fun b hb ↦ by
      have hne : b ≠ space := fun heq ↦ h (heq ▸ List.mem_of_mem_drop hb)
      simpa using hne
  rw [findSpace, hnone]

theorem findSpace_cases (raw : List UInt8) (start : ℕ) :
    findSpace raw start = npos ∨ start ≤ findSpace raw start ∧
      findSpace raw start < raw.length := by
  unfold findSpace
  cases hidx : (raw.drop start).findIdx? (· = space) with
  | none => exact Or.inl rfl
  | some n =>
    obtain ⟨hlt, -⟩ := List.findIdx?_eq_some_iff_getElem.mp hidx
    rw [List.length_drop] at hlt
    exact Or.inr ⟨Nat.le_add_right .., by simp only; omega⟩

theorem findSpace_lt_of_mem {raw : List UInt8} (h : space ∈ raw) :
    findSpace raw 0 < raw.length := by
  unfold findSpace
  cases hidx : (raw.drop 0).findIdx? (· = space) with
  | none =>
    have hno := List.findIdx?_eq_none_iff.mp hidx space h
    simp at hno
  | some n =>
    obtain ⟨hlt, -⟩ := List.findIdx?_eq_some_iff_getElem.mp hidx
    simpa using hlt

/-! ## The strings of one line -/

/-- The first line is cut inside if there is a space in it, in front of its last byte. -/
theorem firstLineCuts_inside_iff {line : List UInt8} (hlong : line.length < maxHeaderSize - 1) :
    (firstLineCuts line).Inside ↔ space ∈ line.dropLast := by
  have hmax : maxHeaderSize = 8192 := rfl
  rcases eq_or_ne line [] with rfl | hne
  · decide
  have hpos : 0 < line.length := List.length_pos_iff.mpr hne
  have hsize : CInt.toUnsigned 64 ((line.length : ℤ) - 1) = line.length - 1 := by
    rw [CInt.toUnsigned_of_mem (by omega) (by omega)]
    omega
  have hraw : line.take (line.length - 1) = line.dropLast := (List.dropLast_eq_take ..).symm
  have hlen : line.dropLast.length = line.length - 1 := List.length_dropLast ..
  unfold firstLineCuts
  simp only [hsize, hraw]
  by_cases hmem : space ∈ line.dropLast
  · rw [iff_true_right hmem]
    have ha : findSpace line.dropLast 0 < line.length - 1 := hlen ▸ findSpace_lt_of_mem hmem
    have hstart : (findSpace line.dropLast 0 + 1) % 2 ^ 64 = findSpace line.dropLast 0 + 1 :=
      Nat.mod_eq_of_lt (by omega)
    rw [hstart]
    have hcases := findSpace_cases line.dropLast (findSpace line.dropLast 0 + 1)
    have hnpos : npos = 2 ^ 64 - 1 := rfl
    generalize findSpace line.dropLast (findSpace line.dropLast 0 + 1) = b at hcases ⊢
    generalize findSpace line.dropLast 0 = a at ha hcases ⊢
    split_ifs with hparts
    · -- the second position is behind the first, at `npos` at the latest
      have hb : a + 1 ≤ b ∧ b < 2 ^ 64 ∧ (b + 1) % 2 ^ 64 ≤ line.length - 1 := by omega
      have hdiff : 1 ≤ CInt.toUnsigned 64 ((b : ℤ) - a) := by
        rw [CInt.toUnsigned_of_mem (by omega) (by omega)]
        omega
      refine ⟨fun r hr ↦ ?_, fun d hd ↦ ?_⟩
      · simp only [List.mem_cons, List.not_mem_nil, or_false] at hr
        rcases hr with rfl | rfl | rfl | rfl <;> simp only [Region.Inside] <;> omega
      · simp only [List.mem_cons, List.not_mem_nil, or_false] at hd
        rcases hd with rfl | rfl | rfl <;> simp only <;> omega
    · refine ⟨fun r hr ↦ ?_, fun d hd ↦ ?_⟩
      · obtain rfl := List.mem_singleton.mp hr
        simp only [Region.Inside]
        omega
      · obtain rfl := List.mem_singleton.mp hd
        exact hpos
  · rw [iff_false_right hmem]
    -- neither space is there: the length between them is that of none, less one
    have ha := findSpace_of_notMem hmem 0
    simp only [ha, findSpace_of_notMem hmem]
    rw [if_pos (by decide)]
    intro hin
    have hone := hin.2 (CInt.toUnsigned 64 ((npos : ℤ) - npos), 1) (by simp)
    exact absurd hone (by decide)

theorem headerCuts_inside_iff {header : List UInt8} (hlong : header.length < maxHeaderSize - 1) :
    (headerCuts header).Inside ↔ HeaderFits header := by
  have hmax : maxHeaderSize = 8192 := rfl
  unfold headerCuts HeaderFits
  simp only
  generalize hskip : (if header.getD (header.findIdx (· = colon) + 1) 0 = space then 2 else 1)
    = skip
  have hskips : skip = 2 ∨ skip = 1 := by
    rw [← hskip]
    exact (Classical.em _).imp (fun h ↦ if_pos h) (fun h ↦ if_neg h)
  generalize header.findIdx (· = colon) = i
  split_ifs with hcolon
  · have hone : CInt.toUnsigned 32 ((header.length : ℤ) - i) = header.length - i := by
      rw [CInt.toUnsigned_of_mem (by omega) (by omega)]
      omega
    have htwo : CInt.toUnsigned 32 ((header.length : ℤ) - i - 1) = header.length - i - 1 := by
      rw [CInt.toUnsigned_of_mem (by omega) (by omega)]
      omega
    constructor
    · intro hin _ _
      have hlast := hin.2 (CInt.toUnsigned 32 ((header.length : ℤ) - i - 1), skip) (by simp)
      simp only [htwo] at hlast
      omega
    · intro hfits
      have hle := hfits hcolon.1 hcolon.2
      have hvalue : CInt.toUnsigned 32 ((header.length : ℤ) - i - 1 - skip)
        = header.length - i - 1 - skip := by
        rw [CInt.toUnsigned_of_mem (by omega) (by omega)]
        omega
      refine ⟨fun r hr ↦ ?_, fun d hd ↦ ?_⟩
      · simp only [List.mem_cons, List.not_mem_nil, or_false] at hr
        rcases hr with rfl | rfl <;> simp only [Region.Inside] <;> omega
      · simp only [List.mem_cons, List.not_mem_nil, or_false] at hd
        rcases hd with rfl | rfl | rfl <;> simp only <;> omega
  · exact iff_of_true ⟨by simp, by simp⟩ fun h0 hlt ↦ absurd ⟨h0, hlt⟩ hcolon

theorem addHeader_eq_none_iff (head : Head) (header : List UInt8) :
    head.addHeader header = none ↔ ¬HeaderFits header := by
  unfold addHeader HeaderFits
  simp only
  generalize (if header.getD (header.findIdx (· = colon) + 1) 0 = space then 2 else 1) = skip
  split_ifs with hcolon hwraps hthere
  · exact iff_of_true rfl fun hfits ↦ absurd (hfits hcolon.1 hcolon.2) (Nat.not_le.mpr hwraps)
  · exact iff_of_false (by simp) (not_not.mpr fun _ _ ↦ Nat.not_lt.mp hwraps)
  · exact iff_of_false (by simp) (not_not.mpr fun _ _ ↦ Nat.not_lt.mp hwraps)
  · exact iff_of_false (by simp) (not_not.mpr fun h0 hlt ↦ absurd ⟨h0, hlt⟩ hcolon)

/-! ## The lines -/

theorem linesFit_false (ls : List (List UInt8)) :
    LinesFit false ls ↔ ∀ header ∈ ls, HeaderFits header := by
  cases ls with
  | nil => simp [LinesFit]
  | cons line ls => rfl

theorem handled_of_stop {line : List UInt8} {ls : List (List UInt8)}
    (hstop : line.length = 1 ∨ maxHeaderSize - 1 ≤ line.length) : handled (line :: ls) = [] := by
  unfold handled
  cases ls with
  | nil => rfl
  | cons line' ls =>
    rw [List.dropLast_cons_cons, List.takeWhile_cons_of_neg]
    rw [decide_eq_true_iff]
    omega

theorem handled_cons {line : List UInt8} {ls : List (List UInt8)} (hls : ls ≠ [])
    (hone : line.length ≠ 1) (hlong : line.length < maxHeaderSize - 1) :
    handled (line :: ls) = line :: handled ls := by
  have hline : decide (line.length ≠ 1 ∧ line.length < maxHeaderSize - 1) = true :=
    decide_eq_true ⟨hone, hlong⟩
  unfold handled
  rw [List.dropLast_cons_of_ne_nil hls, List.takeWhile_cons, if_pos hline]

/-- The strings of the lines are cut inside if the lines fit. The induction is on the lines; behind
a line that does not fit, there may be more of them, but they change nothing. -/
theorem cutsOf_inside_iff (server is_uri : Bool) (head : Head) (ls : List (List UInt8)) :
    (∀ cuts ∈ cutsOf server is_uri head ls, cuts.Inside) ↔ LinesFit is_uri (handled ls) := by
  induction ls generalizing is_uri head with
  | nil => simp [cutsOf, handled, LinesFit]
  | cons line ls ih =>
    rw [cutsOf]
    by_cases hls : ls = []
    · rw [if_pos hls, hls]
      simp [handled, LinesFit]
    rw [if_neg hls]
    by_cases hone : line.length = 1
    · rw [if_pos hone, handled_of_stop (Or.inl hone)]
      simp [LinesFit]
    rw [if_neg hone]
    by_cases hlong : maxHeaderSize - 1 ≤ line.length
    · rw [if_pos hlong, handled_of_stop (Or.inr hlong)]
      simp [LinesFit]
    rw [if_neg hlong, handled_cons hls hone (Nat.not_le.mp hlong)]
    cases is_uri with
    | true =>
      rw [if_pos rfl, List.forall_mem_cons, firstLineCuts_inside_iff (Nat.not_le.mp hlong),
        LinesFit]
      by_cases hline : line = []
      · rw [hline]
        simp
      · rw [if_neg hline, ih, linesFit_false]
    | false =>
      rw [if_neg Bool.false_ne_true, List.forall_mem_cons,
        headerCuts_inside_iff (Nat.not_le.mp hlong), linesFit_false, List.forall_mem_cons]
      refine and_congr_right fun hfits ↦ ?_
      cases hadd : head.addHeader line with
      | none => exact absurd hfits ((addHeader_eq_none_iff head line).mp hadd)
      | some r => rw [ih, linesFit_false]

/-- **The strings of the buffer are those of its lines**, as in `handleLoop_eq`. -/
theorem handleCuts_eq {server is_uri : Bool} {fuel : ℕ} {httpBuf : BipBuf .uint64 UInt8}
    {l : List UInt8} {head : Head} (h : httpBuf.Rep l) (hfuel : l.length < fuel) :
    handleCuts server fuel is_uri httpBuf head = cutsOf server is_uri head (l.splitOn lf) := by
  induction fuel generalizing is_uri httpBuf head l with
  | zero => omega
  | succ fuel ih =>
    have hfind := (BipBuf.find_refines h lf).ret_eq
    rw [handleCuts, hfind]
    cases hidx : l.findIdx? (· = lf) with
    | none =>
      have hmem : lf ∉ l := fun hmem ↦ by
        have hno := List.findIdx?_eq_none_iff.mp hidx lf hmem
        simp at hno
      rw [List.splitOn_eq_singleton hmem, cutsOf, if_pos rfl]
    | some offset =>
      obtain ⟨line, rest, rfl, rfl, hmem⟩ := exists_line hidx
      obtain ⟨hret, hrep, -⟩ := pop_line h
      have hlen : rest.length < fuel := by
        rw [List.length_append, List.length_cons] at hfuel
        omega
      have htake : (line ++ [lf]).take line.length = line := List.take_left' rfl
      have hdrop : (line ++ [lf]).take (line.length - 1) = line.dropLast := by
        rw [List.take_append_of_le_length (Nat.sub_le _ _), List.dropLast_eq_take]
      rw [List.splitOn_append_cons_self_of_not_mem hmem, cutsOf,
        if_neg (List.splitOn_ne_nil lf rest)]
      simp only [hret, htake, hdrop, List.length_eq_zero_iff, ih hrep hlen]

end Head

/-! ## A run of a connection -/

namespace Handshake

variable {cacheSize publishSize : ℕ}

/-- A `Read` of a connecting connection that gets bytes from the socket cuts all its strings inside
their lines. -/
def LengthsFit (s : Handshake cacheSize) : ConOp publishSize → Prop
  | .read _ cb => ∀ con, s.con = some con → con.state = .connecting →
      0 ≤ (con.httpBuf.readv cb).ret →
      ∀ cuts ∈ Head.handleCuts con.server ((con.httpBuf.readv cb).buf.available + 1) true
        (con.httpBuf.readv cb).buf con.head, cuts.Inside
  | _ => True

/-- The lines fit that are in the buffer then. -/
def LinesFit (s : Handshake cacheSize) : ConOp publishSize → Prop
  | .read _ cb => ∀ con, s.con = some con → con.state = .connecting →
      0 ≤ (con.httpBuf.readv cb).ret →
      Head.LinesFit true
        (Head.handled ((con.httpBuf.contents ++ con.httpBuf.delivered cb).splitOn lf))
  | _ => True

variable {computeKey : List UInt8 → Option (List UInt8)} {s : Handshake cacheSize}

theorem Consistent.lengthsFit_iff (hs : s.Consistent) (op : ConOp publishSize) :
    s.LengthsFit op ↔ s.LinesFit op := by
  cases op with
  | read rounds cb =>
    refine forall_congr' fun con ↦ forall_congr' fun hcon ↦ forall_congr' fun hstate ↦
      forall_congr' fun _ ↦ ?_
    obtain ⟨ls, l, hrep, hcap, -⟩ := hs con hcon hstate
    have hreadv := BipBuf.readv_rep hrep hcap cb
    rw [hrep.contents_eq, hreadv.available_eq, Head.handleCuts_eq hreadv (Nat.lt_succ_self _),
      Head.cutsOf_inside_iff]
  | stream key uri host origin => exact Iff.rfl
  | queue code data => exact Iff.rfl
  | write publish fd find cb => exact Iff.rfl

/-- **The lengths of a head are inside its lines in the runs whose lines fit**, whatever a peer
sends, and in whatever pieces. -/
theorem run_lengthsFit_iff {con : Con cacheSize} (hfresh : con.Fresh)
    (ops : List (ConOp publishSize)) :
    Run.Steps (step computeKey) LengthsFit (new con) ops ↔
      Run.Steps (step computeKey) LinesFit (new con) ops :=
  Run.steps_iff_of_invariant (P := Consistent) (fun _ op hs _ ↦ hs.step op)
    (fun _ op hs ↦ hs.lengthsFit_iff op)
    (consistent_new hfresh)

/-- A line of a request and a header. -/
def fittingLines : List (List UInt8) := [ascii "GET / HTTP/1.1\r", ascii "host: a\r"]

theorem linesFit_fittingLines :
    (new server).LinesFit (readLines fittingLines (by decide +kernel)) := by
  intro con hcon _ _
  obtain rfl : server = con := by simpa [new] using hcon
  rw [server_fresh.rep.contents_eq, List.nil_append, delivered_server _ (by decide +kernel)]
  decide +kernel

theorem run_lengthsFit_request : Run.Steps (step fun _ ↦ some []) LengthsFit (new server)
    [readLines fittingLines (by decide +kernel)] :=
  (run_lengthsFit_iff server_fresh _).mpr ⟨linesFit_fittingLines, trivial⟩

/-- A header that ends behind its colon, and has no carriage return. -/
def cutLines : List (List UInt8) := [ascii "GET / HTTP/1.1\r", ascii "Host:"]

/-- The length of the empty value goes around. -/
theorem not_lengthsFit_of_cut : ¬Run.Steps (step fun _ ↦ some []) LengthsFit (new server)
    [readLines cutLines (by decide +kernel)] := by
  intro h
  have hfit :=
    ((consistent_new server_fresh).lengthsFit_iff _).mp h.1 server rfl server_fresh.state_eq
    (by decide +kernel)
  rw [server_fresh.rep.contents_eq, List.nil_append, delivered_server _ (by decide +kernel)] at hfit
  exact absurd hfit (by decide +kernel)

end Handshake

end Coypu
