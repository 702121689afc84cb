import Coypu.Buf.Drain

/-!
# Adding items

Pushes add at a head that is an index of the array; `readv` adds where its callback stored, at a
head that may be the capacity. Both are one or two runs of `put`, with the head taken back to the
beginning in between.
-/

set_option autoImplicit false

namespace Coypu

open FlatMemory Transport

theorem CapacityType.ofInt_natCast {T : CapacityType} {n : ℕ} (h : n < T.bound) :
    T.ofInt n = n :=
  CInt.toUnsigned_natCast (Nat.lt_of_lt_of_le h T.bound_le)

namespace BipBuf

variable {T : CapacityType} {α : Type*} {b : BipBuf T α} {l : List α}

/-! ## From memory -/

theorem push_refines (h : b.Rep l) (hb : b.Bounded) (x : α) :
    b.Refines (b.push x) (decide (l.length + 1 ≤ b.capacity))
      (if l.length + 1 ≤ b.capacity then l ++ [x] else l) := by
  obtain ⟨hhead, htail⟩ := hb
  have hle := h.length_le
  rw [push, h.full_eq ⟨hhead, htail⟩]
  by_cases hroom : l.length + 1 ≤ b.capacity
  · have hput : (b.put [x]).Layout (l ++ [x]) :=
      h.toLayout.put hhead hroom
    have hwrap := hput.wrapHead (by simpa using htail)
    rw [if_neg (by simp; omega), if_pos hroom, decide_eq_true hroom]
    refine ⟨rfl, hwrap.rep_markFull (by simp) fun heq ↦ ?_, ?_, fun _ ↦ ⟨?_, ?_⟩, ?_⟩
    · simp at heq
      omega
    · simp
    · rw [markFull_head, wrapHead_head, markFull_capacity, wrapHead_capacity, put_head,
        put_capacity, List.length_singleton]
      split_ifs <;> omega
    · simpa using htail
    · simp [Region.Inside]
      omega
  · rw [if_pos (by simp; omega), if_neg hroom, decide_eq_false hroom]
    exact h.refines_self false

/-- The items a block push puts before the end of the array. -/
def blockFirst (b : BipBuf T α) (n : ℕ) : ℕ :=
  if b.tail ≤ b.head ∧ b.head < b.capacity then min n (b.capacity - b.head) else 0

/-- The buffer after these items. -/
def blockAfter (b : BipBuf T α) (p : ℕ → α) (n : ℕ) : BipBuf T α :=
  if b.tail ≤ b.head ∧ b.head < b.capacity then (b.put (load p 0 (b.blockFirst n))).wrapHead else b

theorem pushBlock_eq (p : ℕ → α) {n : ℕ} (hav : ¬b.capacity - b.available < n)
    (hn : ¬(n = 0 ∨ b.full = true)) :
    b.pushBlock (some p) n =
      ⟨true, (if n - b.blockFirst n = 0 then b.blockAfter p n
          else (b.blockAfter p n).put (load p (b.blockFirst n) (n - b.blockFirst n))).markFull, [],
        [⟨b.head, b.blockFirst n⟩, ⟨(b.blockAfter p n).head, n - b.blockFirst n⟩]⟩ := by
  rw [pushBlock, if_neg hav, if_neg hn]
  rfl

section Block

variable {p : ℕ → α} {n : ℕ}

/-- The first part of a block is appended, and the rest fits before the end of the array. -/
theorem Rep.blockAfter (h : b.Rep l) (hb : b.Bounded) (hn : 0 < n)
    (hroom : l.length + n ≤ b.capacity) :
    (b.blockAfter p n).Layout (l ++ load p 0 (b.blockFirst n)) ∧
      b.blockFirst n ≤ n ∧ b.head + b.blockFirst n ≤ b.capacity ∧
      (b.blockAfter p n).head + (n - b.blockFirst n) < b.capacity ∧
      (b.blockAfter p n).tail = b.tail ∧ (b.blockAfter p n).capacity = b.capacity := by
  obtain ⟨hhead, htail⟩ := hb
  have hf : ¬b.full = true := fun hf ↦ by
    have := (h.of_full hf).2
    omega
  unfold BipBuf.blockAfter
  by_cases hend : b.tail ≤ b.head ∧ b.head < b.capacity
  · have hx : b.blockFirst n = min n (b.capacity - b.head) := if_pos hend
    have hput : (b.put (load p 0 (b.blockFirst n))).Layout (l ++ load p 0 (b.blockFirst n)) :=
      h.toLayout.put (by rw [length_load]; omega) (by rw [length_load]; omega)
    rw [if_pos hend]
    refine ⟨hput.wrapHead htail, by omega, by omega, ?_, by simp, by simp⟩
    rw [wrapHead_head, put_head, put_capacity, length_load]
    rcases h.of_not_full hf with ⟨-, he⟩ | ⟨hlt, -⟩
    · split_ifs <;> omega
    · omega
  · have hx : b.blockFirst n = 0 := if_neg hend
    rw [if_neg hend, hx, load_zero, List.append_nil]
    refine ⟨h.toLayout, by omega, by omega, ?_, rfl, rfl⟩
    rcases h.of_not_full hf with ⟨hle, -⟩ | ⟨-, he⟩ <;> omega

end Block

theorem pushBlock_refines (h : b.Rep l) (hb : b.Bounded) (p : ℕ → α) (n : ℕ) :
    b.Refines (b.pushBlock (some p) n) (decide (0 < n ∧ l.length + n ≤ b.capacity))
      (if 0 < n ∧ l.length + n ≤ b.capacity then l ++ load p 0 n else l) := by
  have havail := h.available_eq
  have hle := h.length_le
  by_cases hn : 0 < n ∧ l.length + n ≤ b.capacity
  · have hf : ¬b.full = true := fun hf ↦ by
      have := (h.of_full hf).2
      omega
    have hne : ¬(n = 0 ∨ b.full = true) := not_or.mpr ⟨by omega, hf⟩
    obtain ⟨hlay, hfirst, hend, hrest, htail, hcap⟩ := h.blockAfter (p := p) hb hn.1 hn.2
    rw [pushBlock_eq p (by omega) hne, if_pos hn, decide_eq_true hn]
    have hsplit : load p 0 n
        = load p 0 (b.blockFirst n) ++ load p (b.blockFirst n) (n - b.blockFirst n) := by
      have := load_add p 0 (b.blockFirst n) (n - b.blockFirst n)
      rwa [Nat.add_sub_cancel' hfirst, Nat.zero_add] at this
    -- the rest, if there is any, goes to the beginning of the array
    have hlast : (if n - b.blockFirst n = 0 then b.blockAfter p n
        else (b.blockAfter p n).put
          (load p (b.blockFirst n) (n - b.blockFirst n))).Layout (l ++ load p 0 n) := by
      rw [hsplit, ← List.append_assoc]
      split_ifs with h0
      · rwa [h0, load_zero, List.append_nil]
      · refine hlay.put (by rw [length_load, hcap]; exact Nat.le_of_lt hrest) ?_
        rw [List.length_append, length_load, length_load, hcap]
        omega
    have htail' : (if n - b.blockFirst n = 0 then b.blockAfter p n
        else (b.blockAfter p n).put
          (load p (b.blockFirst n) (n - b.blockFirst n))).tail = b.tail := by
      split_ifs <;> simp [htail]
    have hcap' : (if n - b.blockFirst n = 0 then b.blockAfter p n
        else (b.blockAfter p n).put
          (load p (b.blockFirst n) (n - b.blockFirst n))).capacity = b.capacity := by
      split_ifs <;> simp [hcap]
    have hhead' : (if n - b.blockFirst n = 0 then b.blockAfter p n
        else (b.blockAfter p n).put
          (load p (b.blockFirst n) (n - b.blockFirst n))).head < b.capacity := by
      split_ifs
      · omega
      · rwa [put_head, length_load]
    refine ⟨rfl, hlast.rep_markFull ?_ fun heq ↦ ?_, hcap', fun _ ↦ ?_, ?_⟩
    · rw [ne_eq, List.append_eq_nil_iff, ← List.length_eq_zero_iff (l := load p 0 n), length_load]
      omega
    · have := hb.2
      omega
    · simp only [Bounded, markFull_head, markFull_tail, markFull_capacity, hcap', htail']
      exact ⟨hhead', hb.2⟩
    · rw [List.nil_append]
      simp only [List.mem_cons, List.not_mem_nil, or_false, forall_eq_or_imp, forall_eq,
        Region.Inside]
      omega
  · rw [if_neg hn, decide_eq_false hn, pushBlock, havail]
    by_cases hlt : b.capacity - l.length < n
    · simp only [hlt, if_true]
      exact h.refines_self false
    · simp only [hlt, if_false]
      rw [if_pos (by omega)]
      exact h.refines_self false

/-! ## From a descriptor -/

theorem Layout.congr {b' : BipBuf T α} (h : b.Layout l) (hhead : b'.head = b.head)
    (htail : b'.tail = b.tail) (hcap : b'.capacity = b.capacity) (hdata : b'.data = b.data) :
    b'.Layout l := by
  obtain ⟨h₁, h₂, h₃, h₄, h₅⟩ := h
  constructor <;> simpa only [hhead, htail, hcap, hdata]

/-- The value a read callback returns fits what it stored. -/
def Consistent (r : IoResult α) : Prop :=
  (r.ret ≤ 0 ∧ r.bytes = []) ∨ (0 < r.ret ∧ r.ret = (r.bytes.length : ℕ))

/-- The buffer with the regions `v` filled and the head at `hd`. -/
def stored (b : BipBuf T α) (v : List Region) (k : List α) (hd : ℕ) : BipBuf T α :=
  { b with data := scatter b.data v k, head := hd }

theorem filled_of_pos {v : List Region} {r : IoResult α} {move : ℤ → ℕ} (h : 0 < r.ret) :
    (b.filled v r move).buf = (b.stored v r.bytes (move r.ret)).markFull := by
  rw [filled, if_pos h]
  rfl

theorem filled_of_nonpos {v : List Region} {r : IoResult α} {move : ℤ → ℕ} (h : r.ret ≤ 0)
    (hnil : r.bytes = []) : (b.filled v r move).buf = b := by
  rw [filled, if_neg (by omega), hnil, scatter_nil]

theorem Rep.filled_single (h : b.Rep l) {r : IoResult α} {len : ℕ} {move : ℤ → ℕ}
    (hr : Consistent r) (hlen : r.bytes.length ≤ len) (hroom : b.head + len ≤ b.capacity)
    (hfree : l.length + len ≤ b.capacity) (hmove : move r.bytes.length = b.head + r.bytes.length) :
    (b.filled [⟨b.head, len⟩] r move).buf.Rep (l ++ r.bytes) := by
  rcases hr with ⟨hret, hnil⟩ | ⟨hpos, hret⟩
  · rw [filled_of_nonpos hret hnil, hnil, List.append_nil]
    exact h
  · have hput : (b.put r.bytes).Layout (l ++ r.bytes) := h.toLayout.put (by omega) (by omega)
    have hlay : (b.stored [⟨b.head, len⟩] r.bytes (b.head + r.bytes.length)).Layout
        (l ++ r.bytes) :=
      hput.congr rfl rfl rfl (scatter_singleton _ hlen)
    rw [filled_of_pos hpos, hret, hmove]
    refine hlay.rep_markFull ?_ fun _ ↦ ?_
    · rw [ne_eq, List.append_eq_nil_iff, ← List.length_eq_zero_iff (l := r.bytes)]
      omega
    · simp only [stored]
      omega

/-- Filling the run behind the head and the one before the tail: the head goes back to the beginning
once the first is full. -/
theorem Rep.filled_pair (h : b.Rep l) {r : IoResult α} {move : ℤ → ℕ} (hr : Consistent r)
    (hle : b.tail ≤ b.head) (hend : b.tail + l.length = b.head)
    (hlen : r.bytes.length ≤ b.capacity - b.head + b.tail)
    (hmove : move r.bytes.length = if r.bytes.length < b.capacity - b.head
      then b.head + r.bytes.length else r.bytes.length - (b.capacity - b.head)) :
    (b.filled [⟨b.head, b.capacity - b.head⟩, ⟨0, b.tail⟩] r move).buf.Rep (l ++ r.bytes) := by
  have hhead := h.head_le
  rcases hr with ⟨hret, hnil⟩ | ⟨hpos, hret⟩
  · rw [filled_of_nonpos hret hnil, hnil, List.append_nil]
    exact h
  have hne : 0 < r.bytes.length := by omega
  rw [filled_of_pos hpos, hret, hmove]
  set x := b.capacity - b.head with hx
  set hd := if r.bytes.length < x then b.head + r.bytes.length else r.bytes.length - x with hhd
  have hdata : (b.stored [⟨b.head, x⟩, ⟨0, b.tail⟩] r.bytes hd).data
      = store (store b.data b.head (r.bytes.take x)) 0 (r.bytes.drop x) :=
    scatter_pair b.data ⟨b.head, x⟩ ⟨0, b.tail⟩ hlen
  have hput : (b.put (r.bytes.take x)).Layout (l ++ r.bytes.take x) :=
    h.toLayout.put (by rw [List.length_take]; omega) (by rw [List.length_take]; omega)
  have hlay : (b.stored [⟨b.head, x⟩, ⟨0, b.tail⟩] r.bytes hd).Layout (l ++ r.bytes) := by
    by_cases hlt : r.bytes.length < x
    · have htake : r.bytes.take x = r.bytes := List.take_of_length_le (Nat.le_of_lt hlt)
      rw [htake] at hput hdata
      rw [List.drop_of_length_le (Nat.le_of_lt hlt), store_nil] at hdata
      exact hput.congr (if_pos hlt) rfl rfl hdata
    · have htake : (r.bytes.take x).length = x := by
        rw [List.length_take]
        omega
      -- the first piece fills the array to its end, and the second begins at zero
      have hwrap : ({ b.put (r.bytes.take x) with head := 0 } : BipBuf T α).Layout
          (l ++ r.bytes.take x) := by
        refine ⟨Nat.zero_le _, hput.tail_le, hput.length_le, ?_, hput.holds⟩
        unfold Ring.Ends
        simp only [List.length_append, htake, put_tail, put_capacity]
        omega
      have hdrop := hwrap.put (k := r.bytes.drop x) (by simp; omega) (by simp; omega)
      rw [List.append_assoc, List.take_append_drop] at hdrop
      refine hdrop.congr ?_ rfl rfl hdata
      simp only [stored, hhd, if_neg hlt, put_head, List.length_drop]
      omega
  refine hlay.rep_markFull ?_ fun heq ↦ ?_
  · rw [ne_eq, List.append_eq_nil_iff, ← List.length_eq_zero_iff (l := r.bytes)]
    omega
  · simp only [stored] at heq ⊢
    rw [hhd]
    split_ifs <;> omega

theorem consistent_run (cb : Reader α) (lens : List ℕ) : Consistent (cb.run lens) :=
  cb.ret_cases lens

/-- What a `readv` call delivers into the regions it offers. -/
def delivered (b : BipBuf T α) (cb : Reader α) : List α :=
  (cb.run ((b.readv cb).stores.map Region.len)).bytes

theorem readv_of_full (hf : b.full = true) (cb : Reader α) : b.readv cb = ⟨-2, b, [], []⟩ := by
  rw [readv, if_pos hf]

theorem delivered_of_full (hf : b.full = true) (cb : Reader α) : b.delivered cb = [] := by
  rw [delivered, readv_of_full hf, ← List.length_eq_zero_iff]
  have := cb.length_bytes_le []
  simpa using this

theorem delivered_of_eq {v : List Region} {cb : Reader α} {move : ℤ → ℕ}
    (h : b.readv cb = b.filled v (cb.run (v.map Region.len)) move) :
    b.delivered cb = (cb.run (v.map Region.len)).bytes := by
  rw [delivered, h]
  rfl

theorem ofInt_add {m n : ℕ} (h : m + n ≤ b.capacity) : T.ofInt ((m : ℤ) + n) = m + n := by
  have hbound := b.capacity_lt
  exact_mod_cast CapacityType.ofInt_natCast (T := T) (n := m + n) (by omega)

theorem ofInt_add_int {m : ℕ} {i : ℤ} (h₀ : 0 ≤ i) (h : (m : ℤ) + i ≤ b.capacity) :
    (T.ofInt (m + i) : ℤ) = m + i := by
  obtain ⟨n, rfl⟩ := Int.eq_ofNat_of_zero_le h₀
  rw [ofInt_add (b := b) (by omega)]
  omega

/-- The branches of `readv`, with the `int` it keeps replaced by the distance it stands for. -/
theorem readv_cases (h : b.Rep l) (hcap : b.capacity ≤ 2 ^ 31) (cb : Reader α) :
    (b.full = true ∧ b.readv cb = ⟨-2, b, [], []⟩) ∨
    (∃ (len : ℕ) (move : ℤ → ℕ), b.full = false ∧ b.head + len ≤ b.capacity ∧
      l.length + len = b.capacity ∧ b.readv cb = b.filled [⟨b.head, len⟩] (cb.run [len]) move ∧
      ∀ n : ℕ, n ≤ len → move n = b.head + n) ∨
    (∃ move : ℤ → ℕ, b.full = false ∧ b.tail ≤ b.head ∧ b.tail + l.length = b.head ∧
      b.readv cb = b.filled [⟨b.head, b.capacity - b.head⟩, ⟨0, b.tail⟩]
        (cb.run [b.capacity - b.head, b.tail]) move ∧
      ∀ n : ℕ, n < 2 ^ 31 → n ≤ b.capacity - b.head + b.tail →
        move n = if n < b.capacity - b.head then b.head + n else n - (b.capacity - b.head)) := by
  have hhead := h.head_le
  have htail := h.tail_le
  have hlen := h.length_le
  by_cases hf : b.full = true
  · exact Or.inl ⟨hf, by rw [readv, if_pos hf]⟩
  right
  have hf' : b.full = false := Bool.eq_false_iff.mpr hf
  have hadd : ∀ n : ℕ, b.head + n ≤ b.capacity → T.ofInt ((b.head : ℤ) + n) = b.head + n :=
    fun n hn ↦ ofInt_add hn
  by_cases hlt : b.head < b.tail
  · left
    have hfree : l.length + (b.tail - b.head) = b.capacity := by
      rcases h.of_not_full hf with ⟨hge, -⟩ | ⟨-, he⟩ <;> omega
    exact ⟨b.tail - b.head, _, hf', by omega, hfree, by rw [readv, if_neg hf, if_pos hlt],
      fun n hn ↦ hadd n (by omega)⟩
  have he : b.tail + l.length = b.head := by
    rcases h.of_not_full hf with ⟨-, he⟩ | ⟨hlt', -⟩
    · exact he
    · exact absurd hlt' hlt
  by_cases h0 : b.head = 0 ∧ b.tail = 0
  · left
    exact ⟨b.capacity, _, hf', by omega, by omega,
      by rw [readv, if_neg hf, if_neg hlt, if_pos h0], fun n hn ↦ hadd n (by omega)⟩
  · right
    have hx : CInt.toInt (b.capacity - b.head : ℕ) = (b.capacity - b.head : ℕ) :=
      CInt.toInt_of_mem (by omega) (by omega)
    have hsize : CInt.toUnsigned 64 (b.capacity - b.head : ℕ) = b.capacity - b.head :=
      CInt.toUnsigned_natCast (by omega)
    refine ⟨fun ret ↦ if ret < (b.capacity - b.head : ℕ) then T.ofInt (b.head + ret)
      else T.ofInt (CInt.toInt (ret - (b.capacity - b.head : ℕ))), hf', by omega, he, ?_, ?_⟩
    · rw [readv, if_neg hf, if_neg hlt, if_neg h0]
      simp only [hx, hsize]
    · intro n hint hn
      have hoff := ofInt_add (b := b) (m := 0) (n := n - (b.capacity - b.head)) (by omega)
      simp only
      split_ifs with h₁ h₂ h₂
      · exact hadd n (by omega)
      · omega
      · omega
      · have hdiff : (n : ℤ) - (b.capacity - b.head : ℕ)
            = ((0 : ℕ) : ℤ) + (n - (b.capacity - b.head) : ℕ) := by omega
        have hback := CInt.toInt_of_mem (i := (n : ℤ) - (b.capacity - b.head : ℕ))
          (by omega) (by omega)
        rw [hback, hdiff, hoff, Nat.zero_add]

/-- `readv` appends what was delivered, as long as the distance to the end of the array is an `int`
whenever it is kept in one. -/
theorem readv_rep (h : b.Rep l) (hcap : b.capacity ≤ 2 ^ 31) (cb : Reader α) :
    (b.readv cb).buf.Rep (l ++ b.delivered cb) := by
  rcases readv_cases h hcap cb with ⟨hf, -⟩ | ⟨len, move, -, hroom, hfree, heq, hmove⟩ |
    ⟨move, -, hle, he, heq, hmove⟩
  · rw [delivered_of_full hf, readv_of_full hf, List.append_nil]
    exact h
  · have hbytes := cb.length_bytes_le [len]
    rw [List.sum_singleton] at hbytes
    rw [delivered_of_eq heq, heq]
    exact h.filled_single (consistent_run cb _) hbytes hroom (Nat.le_of_eq hfree) (hmove _ hbytes)
  · have hbytes := cb.length_bytes_le [b.capacity - b.head, b.tail]
    rw [List.sum_cons, List.sum_singleton] at hbytes
    rw [delivered_of_eq heq, heq]
    exact h.filled_pair (consistent_run cb _) hle he hbytes
      (hmove _ (cb.length_bytes_lt _) hbytes)

theorem filled_ret (v : List Region) (r : IoResult α) (move : ℤ → ℕ) :
    (b.filled v r move).ret = r.ret := rfl

theorem filled_stores (v : List Region) (r : IoResult α) (move : ℤ → ℕ) :
    (b.filled v r move).stores = v := rfl

theorem filled_capacity (v : List Region) (r : IoResult α) (move : ℤ → ℕ) :
    (b.filled v r move).buf.capacity = b.capacity := by
  unfold filled
  simp only
  split_ifs <;> rfl

theorem readv_capacity (cb : Reader α) : (b.readv cb).buf.capacity = b.capacity := by
  unfold readv
  split_ifs
  · rfl
  all_goals exact filled_capacity _ _ _

theorem readv_tail (cb : Reader α) : (b.readv cb).buf.tail = b.tail := by
  have hfilled (v : List Region) (r : IoResult α) (move : ℤ → ℕ) :
      (b.filled v r move).buf.tail = b.tail := by
    rw [filled]
    simp only
    split_ifs <;> rfl
  unfold readv
  split_ifs
  · rfl
  all_goals exact hfilled _ _ _

theorem readv_offers (h : b.Rep l) (hcap : b.capacity ≤ 2 ^ 31) (cb : Reader α) :
    l.length + ((b.readv cb).stores.map Region.len).sum = b.capacity := by
  have hhead := h.head_le
  rcases readv_cases h hcap cb with ⟨hf, heq⟩ | ⟨len, move, -, -, hfree, heq, -⟩ |
    ⟨move, -, hle, he, heq, -⟩
  · rw [heq, List.map_nil, List.sum_nil, (h.of_full hf).2, Nat.add_zero]
  · rw [heq, filled_stores, List.map_cons, List.map_nil, List.sum_singleton, hfree]
  · have hsum : (([⟨b.head, b.capacity - b.head⟩, ⟨0, b.tail⟩] : List Region).map Region.len).sum
        = b.capacity - b.head + b.tail := by simp
    rw [heq, filled_stores, hsum]
    omega

theorem delivered_ofList (h : b.Rep l) (hcap : b.capacity ≤ 2 ^ 31) {k : List α}
    (hint : k.length < 2 ^ 31) (hfit : l.length + k.length ≤ b.capacity) :
    b.delivered (Reader.ofList k hint) = k := by
  have hoffers := readv_offers h hcap (Reader.ofList k hint)
  rw [delivered, Reader.run_ofList hint (by omega), IoResult.bytes]

/-- The value `readv` returns: its own code for a full buffer, else that of the callback. -/
theorem readv_ret (cb : Reader α) :
    (b.readv cb).ret
      = if b.full then -2 else (cb.run ((b.readv cb).stores.map Region.len)).ret := by
  by_cases hf : b.full = true
  · rw [readv_of_full hf, if_pos hf]
  · rw [if_neg hf, readv, if_neg hf]
    split_ifs <;> simp only [filled_ret, filled_stores, List.map_cons, List.map_nil]

theorem readv_ofList (h : b.Rep l) (hcap : b.capacity ≤ 2 ^ 31) {k : List α} (hk : k ≠ [])
    (hint : k.length < 2 ^ 31) (hfit : l.length + k.length ≤ b.capacity) :
    0 < (b.readv (Reader.ofList k hint)).ret ∧
      (b.readv (Reader.ofList k hint)).buf.Rep (l ++ k) := by
  have hpos := List.length_pos_iff.mpr hk
  have hfull : ¬b.full = true := fun hf ↦ by
    have := (h.of_full hf).2
    omega
  have hoffers := readv_offers h hcap (Reader.ofList k hint)
  have hrep := readv_rep h hcap (Reader.ofList k hint)
  rw [delivered_ofList h hcap hint hfit] at hrep
  rw [readv_ret, if_neg hfull, Reader.run_ofList hint (by omega), IoResult.ret]
  exact ⟨by omega, hrep⟩

theorem delivered_of_nonpos {b : BipBuf T α} {cb : Reader α} (h : (b.readv cb).ret ≤ 0) :
    b.delivered cb = [] := by
  by_cases hf : b.full = true
  · exact delivered_of_full hf cb
  · rw [readv_ret, if_neg hf] at h
    rcases cb.ret_cases ((b.readv cb).stores.map Region.len) with ⟨-, hnil⟩ | ⟨hpos, -⟩
    · exact hnil
    · omega

end BipBuf

end Coypu
