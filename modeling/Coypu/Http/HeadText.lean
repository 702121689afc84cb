import Coypu.Http.Connecting

/-!
# Heads as they are sent

A head is a first line of three parts, fields, and a blank line. `handleLines` takes the first line
of a call for the first line of the head, whatever it is. On the lines of a head it does what was
meant if the call begins with the first line; a field in its place leaves a colon where the method
should be, or the version on a client.
-/

set_option autoImplicit false

namespace Coypu

open WebSocket

/-- A method, a version or the name of a field. -/
structure Token where
  bytes : List UInt8
  bytes_ne : bytes ≠ []
  ne_of_mem : ∀ b ∈ bytes, b ≠ 0 ∧ b ≠ lf ∧ b ≠ space ∧ b ≠ colon

/-- A field of a head. What is behind the colon is kept as it is. -/
structure HeaderField where
  name : Token
  value : List UInt8
  lf_not_mem : lf ∉ value
  length_lt : name.bytes.length + 1 + value.length + 1 < maxHeaderSize - 1

/-- A head: the method, or the version of a response, the URI or the response code, and the rest of
the first line, then the fields. -/
structure HttpHead where
  start : Token
  second : List UInt8
  third : List UInt8
  fields : List HeaderField
  second_ne : ∀ b ∈ second, b ≠ lf ∧ b ≠ space
  lf_not_mem : lf ∉ third
  length_lt : start.bytes.length + 1 + second.length + 1 + third.length + 1 < maxHeaderSize - 1

namespace HeaderField

variable (f : HeaderField)

/-- The line of the field, without its line feed. -/
def line : List UInt8 := f.name.bytes ++ colon :: f.value ++ [cr]

theorem lf_not_mem_line : lf ∉ f.line := by
  have hname := f.name.ne_of_mem
  simp only [line, List.mem_append, List.mem_cons, List.not_mem_nil, or_false, not_or]
  exact ⟨⟨fun h ↦ (hname lf h).2.1 rfl, by decide, f.lf_not_mem⟩, by decide⟩

theorem length_line : f.line.length = f.name.bytes.length + 1 + f.value.length + 1 := by
  simp only [line, List.length_append, List.length_cons, List.length_nil]
  omega

theorem name_pos : 0 < f.name.bytes.length := List.length_pos_iff.mpr f.name.bytes_ne

end HeaderField

namespace HttpHead

variable (h : HttpHead)

/-- The first line, without its line feed. -/
def firstLine : List UInt8 := h.start.bytes ++ space :: (h.second ++ space :: h.third) ++ [cr]

theorem lf_not_mem_firstLine : lf ∉ h.firstLine := by
  have hstart := h.start.ne_of_mem
  have hsecond := h.second_ne
  simp only [firstLine, List.mem_append, List.mem_cons, List.not_mem_nil, or_false, not_or]
  exact ⟨⟨fun hm ↦ (hstart lf hm).2.1 rfl, by decide, fun hm ↦ (hsecond lf hm).1 rfl, by decide,
    h.lf_not_mem⟩, by decide⟩

theorem length_firstLine :
    h.firstLine.length = h.start.bytes.length + 1 + h.second.length + 1 + h.third.length + 1 := by
  simp only [firstLine, List.length_append, List.length_cons, List.length_nil]
  omega

/-- The lines of a head, or of what is left of it behind its first line. -/
def fieldLines (fs : List HeaderField) : List (List UInt8) := fs.map HeaderField.line ++ [[cr]]

/-- The bytes of the head. -/
def bytes : List UInt8 := h.firstLine ++ lf :: Head.unlines (fieldLines h.fields)

end HttpHead

namespace Head

variable {server : Bool} {head : Head}

/-! ## Fields -/

/-- `AddHeader` of a list of fields. -/
def learn (head : Head) (fs : List HeaderField) : Head :=
  fs.foldl (fun head f ↦ ((head.addHeader f.line).map Prod.snd).getD head) head

/-- The method on a server, the version on a client. -/
def startPart (server : Bool) (head : Head) : List UInt8 :=
  if server then head.method else head.version

theorem findIdx_colon (f : HeaderField) : f.line.findIdx (· = colon) = f.name.bytes.length := by
  have hname : f.name.bytes.findIdx (· = colon) = f.name.bytes.length := by
    rw [List.findIdx_eq_length]
    exact fun b hb ↦ decide_eq_false (f.name.ne_of_mem b hb).2.2.2
  rw [HeaderField.line, List.append_assoc, List.findIdx_append, hname, if_neg (Nat.lt_irrefl _),
    List.cons_append, List.findIdx_cons]
  simp

theorem addHeader_line (server : Bool) (head : Head) (f : HeaderField) :
    ∃ b head', head.addHeader f.line = some (b, head') ∧
      head'.startPart server = head.startPart server := by
  have hpos := f.name_pos
  have hlen := f.length_line
  have hget : f.line.getD (f.name.bytes.length + 1) 0 = (f.value ++ [cr]).getD 0 0 := by
    have hline : f.line = (f.name.bytes ++ [colon]) ++ (f.value ++ [cr]) := by
      simp [HeaderField.line]
    rw [hline, List.getD_append_right _ _ _ _ (by simp)]
    simp
  -- a space behind the colon is part of the value
  have hskip : ¬f.line.length < f.name.bytes.length + 1
      + (if f.line.getD (f.name.bytes.length + 1) 0 = space then 2 else 1) := by
    rw [hget]
    cases hvalue : f.value with
    | nil =>
      rw [hvalue, List.length_nil] at hlen
      rw [List.nil_append, List.getD_cons_zero, if_neg (by decide)]
      omega
    | cons b value =>
      rw [hvalue, List.length_cons] at hlen
      split_ifs <;> omega
  rw [addHeader, findIdx_colon]
  simp only
  rw [if_pos (by omega), if_neg hskip]
  by_cases hknown : head.hasHeader ((f.line.take f.name.bytes.length).map toLower) = true
  · rw [if_pos hknown]
    exact ⟨false, head, rfl, rfl⟩
  · rw [if_neg hknown]
    exact ⟨true, _, rfl, rfl⟩

theorem learn_cons (head : Head) (f : HeaderField) (fs : List HeaderField) :
    head.learn (f :: fs) = (((head.addHeader f.line).map Prod.snd).getD head).learn fs := rfl

theorem learn_startPart (server : Bool) (head : Head) (fs : List HeaderField) :
    (head.learn fs).startPart server = head.startPart server := by
  induction fs generalizing head with
  | nil => rfl
  | cons f fs ih =>
    obtain ⟨b, head', hadd, hstart⟩ := addHeader_line server head f
    rw [learn_cons, ih, hadd, Option.map_some, Option.getD_some, hstart]

theorem handleLines_fields {ls : List (List UInt8)} (hls : ls ≠ []) (fs : List HeaderField) :
    handleLines server false head (fs.map HeaderField.line ++ ls)
      = handleLines server false (head.learn fs) ls := by
  induction fs generalizing head with
  | nil => rfl
  | cons f fs ih =>
    obtain ⟨b, head', hadd, -⟩ := addHeader_line server head f
    have hlen := f.length_line
    have hpos := f.name_pos
    have hlt := f.length_lt
    rw [List.map_cons, List.cons_append, handleLines, if_neg (by simp [hls]), if_neg (by omega),
      if_neg (by omega), if_neg (by simp), hadd]
    simp only
    rw [ih, learn_cons, hadd, Option.map_some, Option.getD_some]

theorem handleLines_piece (is_uri : Bool) (piece : List UInt8) :
    handleLines server is_uri head [piece] = some (0, head, [piece]) := by
  rw [handleLines, if_pos rfl]

theorem handleLines_blank (is_uri : Bool) {ls : List (List UInt8)} (hls : ls ≠ []) :
    handleLines server is_uri head ([cr] :: ls) = some (0, head, ls) := by
  rw [handleLines, if_neg hls, if_pos (List.length_singleton)]

/-! ## First lines -/

theorem handleLines_first {line : List UInt8} {ls : List (List UInt8)} (hls : ls ≠ [])
    (hpos : 1 < line.length) (hlt : line.length < maxHeaderSize - 1) :
    handleLines server true head (line :: ls)
      = handleLines server false (head.firstLine server line.dropLast) ls := by
  rw [handleLines, if_neg hls, if_neg (by omega), if_neg (by omega), if_pos rfl,
    if_neg (fun hnil ↦ by simp [hnil] at hpos)]

theorem findIdx?_space {l k : List UInt8} (h : ∀ b ∈ l, b ≠ space) :
    (l ++ space :: k).findIdx? (· = space) = some l.length := by
  have hnone : l.findIdx? (· = space) = none := by simpa [List.findIdx?_eq_none_iff] using h
  rw [List.findIdx?_append, hnone, List.findIdx?_cons]
  simp

theorem parts_firstLine (h : HttpHead) :
    parts h.firstLine.dropLast = some (h.start.bytes, h.second, h.third) := by
  have hstart : ∀ b ∈ h.start.bytes, b ≠ space := fun b hb ↦ (h.start.ne_of_mem b hb).2.2.1
  have hsecond : ∀ b ∈ h.second, b ≠ space := fun b hb ↦ (h.second_ne b hb).2
  have hne : ¬h.start.bytes.length = 0 := by simpa using h.start.bytes_ne
  have hraw : h.firstLine.dropLast = h.start.bytes ++ space :: (h.second ++ space :: h.third) := by
    rw [HttpHead.firstLine, List.dropLast_concat]
  have hdrop : h.firstLine.dropLast.drop (h.start.bytes.length + 1)
    = h.second ++ space :: h.third := by
    rw [hraw, List.append_cons, List.drop_left' (by simp)]
  have hdrop' : h.firstLine.dropLast.drop (h.start.bytes.length + 1 + h.second.length + 1)
    = h.third := by
    rw [Nat.add_assoc _ h.second.length, ← List.drop_drop, hdrop, List.append_cons,
      List.drop_left' (by simp)]
  have hfind : h.firstLine.dropLast.findIdx? (· = space) = some h.start.bytes.length := by
    rw [hraw, findIdx?_space hstart]
  rw [parts, hfind]
  simp only
  rw [if_neg hne, hdrop, findIdx?_space hsecond]
  simp only
  rw [hdrop', List.take_left' rfl, hraw, List.take_left' rfl]

/-- What is known of a head when `fs` of its fields have come. -/
def known (server : Bool) (h : HttpHead) (fs : List HeaderField) : Head :=
  (empty.firstLine server h.firstLine.dropLast).learn fs

theorem handleLines_known (server : Bool) (h : HttpHead) (fs : List HeaderField)
    {ls : List (List UInt8)} (hls : ls ≠ []) :
    handleLines server true empty (h.firstLine :: (fs.map HeaderField.line ++ ls))
      = handleLines server false (known server h fs) ls := by
  have hlen := h.length_firstLine
  have hlt := h.length_lt
  rw [handleLines_first (by simp [hls]) (by omega) (by omega), handleLines_fields hls, known]

/-- The lines of a head, as far as they have come, and the piece behind them. -/
theorem splitOn_fields (fs : List HeaderField) {r : List UInt8} (hr : lf ∉ r) :
    (unlines (fs.map HeaderField.line) ++ r).splitOn lf = fs.map HeaderField.line ++ [r] := by
  refine splitOn_unlines (fun line hline ↦ ?_) hr
  obtain ⟨f, -, rfl⟩ := List.mem_map.mp hline
  exact f.lf_not_mem_line

theorem splitOn_fieldLines (fs : List HeaderField) :
    (unlines (HttpHead.fieldLines fs)).splitOn lf = fs.map HeaderField.line ++ [[cr], []] := by
  have hlines : ∀ line ∈ HttpHead.fieldLines fs, lf ∉ line := fun line hline ↦ by
    rcases List.mem_append.mp hline with hfield | hblank
    · obtain ⟨f, -, rfl⟩ := List.mem_map.mp hfield
      exact f.lf_not_mem_line
    · rw [List.mem_singleton.mp hblank]
      decide
  have hsplit := splitOn_unlines hlines (List.not_mem_nil (a := lf))
  rwa [List.append_nil, HttpHead.fieldLines, List.append_assoc] at hsplit

theorem colon_not_mem_known (h : HttpHead) (fs : List HeaderField) :
    colon ∉ (known server h fs).startPart server := by
  have hstart : colon ∉ cStr h.start.bytes := fun hmem ↦
    (h.start.ne_of_mem colon ((List.takeWhile_prefix _).subset hmem)).2.2.2 rfl
  rw [known, learn_startPart, firstLine, parts_firstLine]
  unfold startPart
  by_cases hserver : server = true
  · simpa only [if_pos hserver] using hstart
  · simpa only [if_neg hserver] using hstart

theorem parts_line (f : HeaderField) :
    ∃ a b c, parts f.line.dropLast = some (f.name.bytes ++ colon :: a, b, c) := by
  have hraw : f.line.dropLast = f.name.bytes ++ colon :: f.value := by
    rw [HeaderField.line, List.dropLast_concat]
  have hname : f.name.bytes.findIdx? (· = space) = none := by
    simpa [List.findIdx?_eq_none_iff] using fun b hb ↦ (f.name.ne_of_mem b hb).2.2.1
  have hcolon : decide (colon = space) = false := by decide
  have hpos := f.name_pos
  rw [hraw, parts, List.findIdx?_append, hname, List.findIdx?_cons, hcolon]
  cases hvalue : f.value.findIdx? (· = space) with
  | none => exact ⟨_, _, _, rfl⟩
  | some i =>
    have htake : (f.name.bytes ++ colon :: f.value).take (i + 1 + f.name.bytes.length)
        = f.name.bytes ++ colon :: f.value.take i := by
      rw [Nat.add_comm, List.take_length_add_append, List.take_succ_cons]
    simp only [Option.map_some, Option.none_or, Bool.false_eq_true, if_false]
    rw [if_neg (by omega), htake]
    split <;> exact ⟨_, _, _, rfl⟩

theorem colon_mem_firstLine (server : Bool) (head : Head) (f : HeaderField) :
    colon ∈ (head.firstLine server f.line.dropLast).startPart server := by
  obtain ⟨a, b, c, hparts⟩ := parts_line f
  have hmem : colon ∈ cStr (f.name.bytes ++ colon :: a) := by
    rw [cStr, List.takeWhile_append_of_pos fun b hb ↦ decide_eq_true (f.name.ne_of_mem b hb).1,
      List.takeWhile_cons_of_pos (by decide)]
    simp
  rw [firstLine, hparts]
  unfold startPart
  by_cases hserver : server = true
  · simpa only [if_pos hserver] using hmem
  · simpa only [if_neg hserver] using hmem

/-- The head after a call that begins with a field. -/
def retaken (server : Bool) (head : Head) : List HeaderField → Head
  | [] => head
  | f :: fs => (head.firstLine server f.line.dropLast).learn fs

theorem handleLines_retaken (server : Bool) (head : Head) (fs : List HeaderField)
    {ls ks : List (List UInt8)} (hls : ls ≠ [])
    (hend : ∀ is_uri head, handleLines server is_uri head ls = some (0, head, ks)) :
    handleLines server true head (fs.map HeaderField.line ++ ls)
      = some (0, retaken server head fs, ks) := by
  cases fs with
  | nil => exact hend true head
  | cons f fs =>
    have hlen := f.length_line
    have hpos := f.name_pos
    have hlt := f.length_lt
    rw [List.map_cons, List.cons_append, handleLines_first (by simp [hls]) (by omega) (by omega),
      handleLines_fields hls, hend, retaken]

theorem colon_mem_retaken (server : Bool) (head : Head) {fs : List HeaderField}
    (h : fs ≠ [] ∨ colon ∈ head.startPart server) :
    colon ∈ (retaken server head fs).startPart server := by
  cases fs with
  | nil => exact h.resolve_left fun hne ↦ hne rfl
  | cons f fs =>
    rw [retaken, learn_startPart]
    exact colon_mem_firstLine server head f

/-- A head with a colon there is never accepted. -/
theorem colon_not_mem_of_accepts {cacheSize : ℕ} {con : Con cacheSize}
    {computeKey : List UInt8 → Option (List UInt8)} (h : con.Accepts computeKey head) :
    colon ∉ head.startPart con.server := by
  unfold Con.Accepts at h
  unfold startPart
  by_cases hserver : con.server = true
  · rw [if_pos hserver] at h ⊢
    unfold Con.serverKey at h
    simp only at h
    split_ifs at h with hall
    · rw [hall.1]
      decide
    · exact absurd h Bool.false_ne_true
  · rw [if_neg hserver] at h ⊢
    unfold Con.clientAccepts at h
    simp only [Bool.and_eq_true, decide_eq_true_eq] at h
    rw [h.1.2]
    decide

end Head

end Coypu
