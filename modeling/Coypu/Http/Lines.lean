import Coypu.Buf.Drain
import Coypu.Http.Head

/-!
# The head, line by line

What `HandleHTTP` does to the buffer is what `handleLines` does to the lines of the bytes in it, the
last one being the beginning of a line that has not arrived whole. So a head can be followed on its
lines, and the buffer is only met here.
-/

set_option autoImplicit false

namespace Coypu

open WebSocket

namespace Head

/-- `HandleHTTP` over the lines in the buffer. It returns what is left of them. -/
def handleLines (server : Bool) : Bool → Head → List (List UInt8) →
    Option (ℤ × Head × List (List UInt8))
  | _, head, [] => some (0, head, [])
  | is_uri, head, line :: ls =>
    if ls = [] then some (0, head, [line])
    else if line.length = 1 then some (0, head, ls)
    else if maxHeaderSize - 1 ≤ line.length then some (-3, head, line :: ls)
    else if is_uri then
      if line = [] then none else handleLines server false (head.firstLine server line.dropLast) ls
    else
      match head.addHeader line with
      | none => none
      | some (_, head') => handleLines server false head' ls

variable {server : Bool}

/-! ## Lines taken -/

/-- Lines with their line feeds. -/
def unlines (ls : List (List UInt8)) : List UInt8 := ls.flatMap (· ++ [lf])

theorem unlines_append (ls ks : List (List UInt8)) :
    unlines (ls ++ ks) = unlines ls ++ unlines ks :=
  List.flatMap_append ..

theorem splitOn_unlines {ls : List (List UInt8)} {r : List UInt8} (hls : ∀ line ∈ ls, lf ∉ line)
    (hr : lf ∉ r) : (unlines ls ++ r).splitOn lf = ls ++ [r] := by
  induction ls with
  | nil => exact List.splitOn_eq_singleton hr
  | cons line ls ih =>
    have hrest := ih fun line' hmem ↦ hls line' (List.mem_cons_of_mem _ hmem)
    have hbytes : unlines (line :: ls) ++ r = line ++ lf :: (unlines ls ++ r) := by simp [unlines]
    rw [hbytes, List.splitOn_append_cons_self_of_not_mem (hls line (List.mem_cons_self ..)), hrest,
      List.cons_append]

theorem intercalate_append {ls ks : List (List UInt8)} (hks : ks ≠ []) :
    [lf].intercalate (ls ++ ks) = unlines ls ++ [lf].intercalate ks := by
  induction ls with
  | nil => rfl
  | cons line ls ih =>
    have hne : ls ++ ks ≠ [] := by simp [hks]
    rw [List.cons_append, List.intercalate_cons_of_ne_nil hne, ih]
    simp [unlines]

theorem exists_taken {is_uri : Bool} {head head' : Head} {ls ks : List (List UInt8)} {ret : ℤ}
    (hls : ls ≠ []) (h : handleLines server is_uri head ls = some (ret, head', ks)) :
    ∃ taken, ls = taken ++ ks ∧ ks ≠ [] := by
  induction ls generalizing is_uri head with
  | nil => exact absurd rfl hls
  | cons line ls ih =>
    have hmore : ∀ {is_uri : Bool} {head : Head}, ls ≠ [] →
        handleLines server is_uri head ls = some (ret, head', ks) →
        ∃ taken, line :: ls = taken ++ ks ∧ ks ≠ [] := fun hne hrest ↦ by
      obtain ⟨taken, htaken, hks⟩ := ih hne hrest
      exact ⟨line :: taken, by rw [List.cons_append, ← htaken], hks⟩
    rw [handleLines] at h
    split_ifs at h with hlast hblank hlong huri hnil
    · obtain ⟨-, -, rfl⟩ : (0 : ℤ) = ret ∧ head = head' ∧ [line] = ks := by simpa using h
      exact ⟨[], by rw [hlast, List.nil_append], by simp⟩
    · obtain ⟨-, -, rfl⟩ : (0 : ℤ) = ret ∧ head = head' ∧ ls = ks := by simpa using h
      exact ⟨[line], rfl, hlast⟩
    · obtain ⟨-, -, rfl⟩ : (-3 : ℤ) = ret ∧ head = head' ∧ line :: ls = ks := by simpa using h
      exact ⟨[], rfl, by simp⟩
    · exact hmore hlast h
    · cases hadd : head.addHeader line with
      | none =>
        rw [hadd] at h
        exact absurd h (by simp)
      | some r =>
        rw [hadd] at h
        exact hmore hlast h

/-- The first line of one byte that is complete. -/
def blankLine (ls : List (List UInt8)) : Option (List UInt8) :=
  ls.dropLast.find? (·.length = 1)

theorem handleLines_ret {is_uri : Bool} {head head' : Head} {ls ks : List (List UInt8)} {ret : ℤ}
    (h : handleLines server is_uri head ls = some (ret, head', ks)) : ret = 0 ∨ ret < 0 := by
  induction ls generalizing is_uri head with
  | nil => exact Or.inl (congrArg Prod.fst (Option.some.inj h)).symm
  | cons line ls ih =>
    rw [handleLines] at h
    split_ifs at h
    · exact Or.inl (congrArg Prod.fst (Option.some.inj h)).symm
    · exact Or.inl (congrArg Prod.fst (Option.some.inj h)).symm
    · obtain rfl : (-3 : ℤ) = ret := congrArg Prod.fst (Option.some.inj h)
      exact Or.inr (by decide)
    · exact ih h
    · cases hadd : head.addHeader line with
      | none =>
        rw [hadd] at h
        exact absurd h (by simp)
      | some r =>
        rw [hadd] at h
        exact ih h

theorem exists_taken_blank {is_uri : Bool} {head head' : Head} {ls ks : List (List UInt8)}
    {blank : List UInt8} (hblank : blankLine ls = some blank)
    (h : handleLines server is_uri head ls = some (0, head', ks)) :
    ∃ taken, ls = taken ++ [blank] ++ ks := by
  induction ls generalizing is_uri head with
  | nil => exact absurd hblank (by simp [blankLine])
  | cons line ls ih =>
    by_cases hlast : ls = []
    · rw [hlast] at hblank
      exact absurd hblank (by simp [blankLine])
    have hmore : ∀ {is_uri : Bool} {head : Head}, ¬line.length = 1 →
        handleLines server is_uri head ls = some (0, head', ks) →
        ∃ taken, line :: ls = taken ++ [blank] ++ ks := fun hlen hrest ↦ by
      have hblank' : blankLine ls = some blank := by
        rw [blankLine, List.dropLast_cons_of_ne_nil hlast,
          List.find?_cons_of_neg (by simpa using hlen)]
          at hblank
        exact hblank
      obtain ⟨taken, htaken⟩ := ih hblank' hrest
      exact ⟨line :: taken, by rw [htaken, List.cons_append, List.cons_append]⟩
    rw [handleLines, if_neg hlast] at h
    split_ifs at h with hlen hlong huri hnil
    · obtain ⟨-, rfl⟩ : head = head' ∧ ls = ks := by simpa using h
      rw [blankLine, List.dropLast_cons_of_ne_nil hlast,
        List.find?_cons_of_pos (by simpa using hlen)] at hblank
      obtain rfl : line = blank := by simpa using hblank
      exact ⟨[], rfl⟩
    · exact absurd h (by simp)
    · exact hmore hlen h
    · cases hadd : head.addHeader line with
      | none =>
        rw [hadd] at h
        exact absurd h (by simp)
      | some r =>
        rw [hadd] at h
        exact hmore hlen h

/-! ## The buffer -/

theorem exists_line {l : List UInt8} {offset : ℕ} (h : l.findIdx? (· = lf) = some offset) :
    ∃ line rest, l = line ++ lf :: rest ∧ line.length = offset ∧ lf ∉ line := by
  obtain ⟨hlt, heq, hmin⟩ := List.findIdx?_eq_some_iff_getElem.mp h
  refine ⟨l.take offset, l.drop (offset + 1), ?_, ?_, ?_⟩
  · have hget : l[offset] = lf := by simpa using heq
    rw [← hget, List.getElem_cons_drop, List.take_append_drop]
  · rw [List.length_take]
    omega
  · intro hmem
    obtain ⟨j, hj, hget⟩ := List.getElem_of_mem hmem
    rw [List.length_take] at hj
    rw [List.getElem_take] at hget
    exact hmin j (by omega) (by simpa using hget)

variable {httpBuf : BipBuf .uint64 UInt8} {l : List UInt8}

theorem pop_line {line rest : List UInt8} (h : httpBuf.Rep (line ++ lf :: rest)) :
    (httpBuf.pop (line.length + 1) false).ret = some (line ++ [lf]) ∧
      (httpBuf.pop (line.length + 1) false).buf.Rep rest ∧
      (httpBuf.pop (line.length + 1) false).buf.capacity = httpBuf.capacity := by
  have hpop := BipBuf.pop_refines h (line.length + 1)
  have hlen : 0 < line.length + 1 ∧ line.length + 1 ≤ (line ++ lf :: rest).length := by simp
  rw [if_pos hlen, if_pos hlen, List.append_cons] at hpop
  have hone : line.length + 1 = (line ++ [lf]).length := by simp
  rw [hone, List.take_left' rfl, List.drop_left' rfl, ← hone] at hpop
  exact ⟨hpop.ret_eq, hpop.rep, hpop.capacity_eq⟩

/-- **The loop of `HandleHTTP` is `handleLines`.** The induction is on the rounds; each takes a
line, and there are at least as many rounds as bytes. -/
theorem handleLoop_eq {fuel : ℕ} {is_uri : Bool} {head : Head} (h : httpBuf.Rep l)
    (hfuel : l.length < fuel) :
    ∃ httpBuf', handleLoop server fuel is_uri httpBuf head
        = (handleLines server is_uri head (l.splitOn lf)).map (fun r ↦ (r.1, httpBuf', r.2.1)) ∧
      httpBuf'.capacity = httpBuf.capacity ∧
      ∀ r, handleLines server is_uri head (l.splitOn lf) = some r →
        httpBuf'.Rep ([lf].intercalate r.2.2) := by
  induction fuel generalizing is_uri httpBuf head l with
  | zero => omega
  | succ fuel ih =>
    have hfind := (BipBuf.find_refines h lf).ret_eq
    rw [handleLoop, hfind]
    cases hidx : l.findIdx? (· = lf) with
    | none =>
      have hmem : lf ∉ l := fun hmem ↦ by
        have hno := List.findIdx?_eq_none_iff.mp hidx lf hmem
        simp at hno
      rw [List.splitOn_eq_singleton hmem, handleLines, if_pos rfl]
      refine ⟨httpBuf, rfl, rfl, fun r hr ↦ ?_⟩
      obtain rfl : (0, head, [l]) = r := by simpa using hr
      simpa using h
    | some offset =>
      obtain ⟨line, rest, rfl, rfl, hmem⟩ := exists_line hidx
      obtain ⟨hret, hrep, hcap⟩ := pop_line h
      have hlen : rest.length < fuel := by
        rw [List.length_append, List.length_cons] at hfuel
        omega
      have hall : [lf].intercalate (line :: rest.splitOn lf) = line ++ lf :: rest := by
        rw [← List.splitOn_append_cons_self_of_not_mem hmem, List.intercalate_splitOn]
      rw [List.splitOn_append_cons_self_of_not_mem hmem, handleLines,
        if_neg (List.splitOn_ne_nil lf rest)]
      simp only [hret]
      by_cases hblank : line.length = 1
      · rw [if_pos hblank, if_pos hblank]
        refine ⟨_, rfl, hcap, fun r hr ↦ ?_⟩
        obtain rfl : (0, head, rest.splitOn lf) = r := by simpa using hr
        simpa only [List.intercalate_splitOn] using hrep
      rw [if_neg hblank, if_neg hblank]
      -- a line that is too long stays in the buffer
      by_cases hlong : maxHeaderSize - 1 ≤ line.length
      · rw [if_pos hlong, if_pos hlong]
        refine ⟨httpBuf, rfl, rfl, fun r hr ↦ ?_⟩
        obtain rfl : (-3, head, line :: rest.splitOn lf) = r := by simpa using hr
        simpa only [hall] using h
      rw [if_neg hlong, if_neg hlong]
      have htake : (line ++ [lf]).take line.length = line := List.take_left' rfl
      have hdrop : (line ++ [lf]).take (line.length - 1) = line.dropLast := by
        rw [List.take_append_of_le_length (Nat.sub_le _ _), List.dropLast_eq_take]
      rw [htake, hdrop]
      by_cases huri : is_uri = true
      · rw [if_pos huri, if_pos huri]
        by_cases hnil : line = []
        · rw [if_pos hnil, if_pos (by rw [hnil, List.length_nil])]
          exact ⟨httpBuf, rfl, rfl, fun r hr ↦ absurd hr (by simp)⟩
        · rw [if_neg hnil, if_neg (fun h0 ↦ hnil (List.length_eq_zero_iff.mp h0))]
          obtain ⟨httpBuf', heq, hcap', hleft⟩ := ih hrep hlen
          exact ⟨httpBuf', heq, hcap'.trans hcap, hleft⟩
      · rw [if_neg huri, if_neg huri]
        cases head.addHeader line with
        | none => exact ⟨httpBuf, rfl, rfl, fun r hr ↦ absurd hr (by simp)⟩
        | some r =>
          obtain ⟨httpBuf', heq, hcap', hleft⟩ := ih hrep hlen
          exact ⟨httpBuf', heq, hcap'.trans hcap, hleft⟩

theorem handleHTTP_eq (h : httpBuf.Rep l) (server : Bool) (head : Head) :
    ∃ httpBuf', head.handleHTTP server httpBuf
        = (handleLines server true head (l.splitOn lf)).map (fun r ↦ (r.1, httpBuf', r.2.1)) ∧
      httpBuf'.capacity = httpBuf.capacity ∧
      ∀ r, handleLines server true head (l.splitOn lf) = some r →
        httpBuf'.Rep ([lf].intercalate r.2.2) := by
  rw [handleHTTP, h.available_eq]
  exact handleLoop_eq h (Nat.lt_succ_self _)

end Head

end Coypu
