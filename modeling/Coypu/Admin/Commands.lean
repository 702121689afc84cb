import Coypu.Admin.AdminManager
import Coypu.Http.Lines
import Coypu.Library.Lines

/-!
# Commands of the admin socket

The bytes that arrived on each connection are tracked beside the manager, and what was dispatched on
it. A `Read` keeps up with its connection if, when it returns, every line that is complete has been
dispatched, in order, and the buffer holds what lies behind the last of them.

`Read` takes one line out of the buffer. It keeps up exactly if at most one line ends in what it is
given, and this line has no zero byte, at which the string it is taken for would end. A second line
stays in the buffer until the descriptor is ready again.
-/

set_option autoImplicit false

namespace Coypu

open Transport WebSocket StringUtil

/-! ## The command of a line -/

/-- The parts of a line. -/
def command (line : List UInt8) : List (List UInt8) := split (trim line) space

/-- What is to be dispatched of a stream. A line of spaces has no parts. -/
def commands (bytes : List UInt8) : List (List (List UInt8)) :=
  ((Lines.complete lf bytes).map command).filter (· ≠ [])

theorem filter_singleton_inj {a b : List (List UInt8)}
    (h : [a].filter (· ≠ []) = [b].filter (· ≠ [])) : a = b := by
  cases a <;> cases b <;> simp_all

theorem exists_zero_mem_command {line : List UInt8} :
    (∃ part ∈ command line, 0 ∈ part) ↔ 0 ∈ line := by
  rw [command, exists_mem_split_iff (by decide), mem_trim_iff (by decide)]

theorem command_cStr_eq_iff {line : List UInt8} :
    command (Head.cStr line) = command line ↔ 0 ∉ line := by
  constructor
  · intro heq hmem
    obtain hex := exists_zero_mem_command.mpr hmem
    rw [← heq] at hex
    exact Head.zero_not_mem_cStr line (exists_zero_mem_command.mp hex)
  · intro h
    rw [Head.cStr_eq_self_iff.mpr h]

theorem commands_append (a b : List UInt8) :
    commands (a ++ b) = commands a ++ commands (Lines.rest lf a ++ b) := by
  rw [commands, Lines.complete_append, List.map_append, List.filter_append, commands, commands]

theorem commands_of_not_mem {l : List UInt8} (h : lf ∉ l) : commands l = [] := by
  rw [commands, Lines.complete_of_not_mem h, List.map_nil, List.filter_nil]

theorem commands_line_append {line : List UInt8} (h : lf ∉ line) (r : List UInt8) :
    commands (line ++ lf :: r) = [command line].filter (· ≠ []) ++ commands r := by
  rw [commands, Lines.complete_line_append h, List.map_cons, ← List.singleton_append,
    List.filter_append, commands]

/-! ## `Read` -/

namespace AdminManager

variable {κ : Type*} {m : AdminManager κ} {fd : ℤ}

theorem dispatch_cmd (m : AdminManager κ) (cmd : List (List UInt8)) :
    (m.dispatch cmd).toList.map Dispatch.cmd = [cmd].filter (· ≠ []) := by
  cases cmd <;> rfl

variable {readBuf : BipBuf .uint64 UInt8} {l : List UInt8} {cb : Reader UInt8}

theorem read_of_not_mem (hcon : m.connections fd = some readBuf)
    (hrep : (readBuf.readv cb).buf.Rep l) (hlf : lf ∉ l) :
    ∃ con, (m.read fd cb).manager = m.setConnection fd (some con) ∧ con.Rep l ∧
      con.capacity = readBuf.capacity ∧ (m.read fd cb).dispatched = none := by
  have hfind := BipBuf.find_refines hrep lf
  have hnone : ((readBuf.readv cb).buf.find lf).ret = none := by
    rw [hfind.ret_eq, List.findIdx?_eq_none_iff]
    exact fun b hb ↦ decide_eq_false fun heq ↦ hlf (heq ▸ hb)
  refine ⟨((readBuf.readv cb).buf.find lf).buf, ?_, hfind.rep, ?_, ?_⟩
  · simp only [read, hcon, hnone]
  · rw [hfind.capacity_eq, BipBuf.readv_capacity]
  · simp only [read, hcon, hnone]

theorem read_of_line {line r : List UInt8} (hcon : m.connections fd = some readBuf)
    (hrep : (readBuf.readv cb).buf.Rep (line ++ lf :: r)) (hlf : lf ∉ line)
    (hlen : line.length < lineSize) :
    ∃ con, (m.read fd cb).manager = m.setConnection fd (some con) ∧ con.Rep r ∧
      con.capacity = readBuf.capacity ∧
      (m.read fd cb).dispatched = m.dispatch (command (Head.cStr line)) := by
  have hfind := BipBuf.find_refines hrep lf
  have hsome : ((readBuf.readv cb).buf.find lf).ret = some line.length := by
    rw [hfind.ret_eq, List.findIdx?_append]
    have hno : line.findIdx? (· = lf) = none :=
      List.findIdx?_eq_none_iff.mpr fun b hb ↦ decide_eq_false fun heq ↦ hlf (heq ▸ hb)
    simp [hno, List.findIdx?_cons]
  obtain ⟨hret, hpop, hcap⟩ := Head.pop_line hfind.rep
  have hshort : ¬lineSize < line.length + 1 := by omega
  have hstr : Head.cStr ((line ++ [lf]).set line.length 0) = Head.cStr line := by
    rw [List.set_append_right _ _ (Nat.le_refl _), Nat.sub_self, List.set_cons_zero, Head.cStr,
      Head.cStr, List.takeWhile_append]
    split_ifs with hall
    · rw [List.takeWhile_cons_of_neg (by simp), List.append_nil]
      exact ((List.takeWhile_prefix _).eq_of_length hall).symm
    · rfl
  refine ⟨(((readBuf.readv cb).buf.find lf).buf.pop (line.length + 1) false).buf, ?_, hpop, ?_, ?_⟩
  · simp only [read, hcon, hsome, if_neg hshort, hret]
  · rw [hcap, hfind.capacity_eq, BipBuf.readv_capacity]
  · simp only [read, hcon, hsome, if_neg hshort, hret, hstr, command]

end AdminManager

/-! ## Runs -/

inductive AdminOp (κ : Type*) where
  | register (fd : ℤ) (data : ℕ → UInt8)
  | unregister (fd : ℤ)
  | registerCommand (name : List UInt8) (cb : κ)
  | read (fd : ℤ) (cb : Reader UInt8)

/-- The manager, and what arrived and was dispatched on each connection since it was made. -/
structure AdminSession (κ : Type*) where
  manager : AdminManager κ
  received : ℤ → List UInt8
  dispatched : ℤ → List (List (List UInt8))

namespace AdminSession

open AdminManager

variable {κ : Type*}

def new : AdminSession κ := ⟨AdminManager.new, fun _ ↦ [], fun _ ↦ []⟩

/-- What a `Read` adds to the buffer. -/
def arriving (s : AdminSession κ) (fd : ℤ) (cb : Reader UInt8) : List UInt8 :=
  match s.manager.connections fd with
  | none => []
  | some readBuf => readBuf.delivered cb

def step (s : AdminSession κ) : AdminOp κ → AdminSession κ × Unit
  | .register fd data =>
    match s.manager.register fd data with
    | (true, manager) =>
      (⟨manager, Function.update s.received fd [], Function.update s.dispatched fd []⟩, ())
    | (false, manager) => ({ s with manager := manager }, ())
  | .unregister fd => ({ s with manager := (s.manager.unregister fd).2 }, ())
  | .registerCommand name cb => ({ s with manager := (s.manager.registerCommand name cb).2 }, ())
  | .read fd cb =>
    let o := s.manager.read fd cb
    (⟨o.manager, Function.update s.received fd (s.received fd ++ s.arriving fd cb),
      Function.update s.dispatched fd
        (s.dispatched fd ++ o.dispatched.toList.map Dispatch.cmd)⟩, ())

/-- All that is complete has been dispatched, and the buffer holds the rest. -/
def UpToDate (s : AdminSession κ) (fd : ℤ) : Prop :=
  ∀ readBuf, s.manager.connections fd = some readBuf →
    s.dispatched fd = commands (s.received fd) ∧
      readBuf.contents = Lines.rest lf (s.received fd)

/-- When a `Read` returns, its connection is up to date. -/
def KeepsUp (s : AdminSession κ) : AdminOp κ → Prop
  | .read fd cb => (s.step (.read fd cb)).1.UpToDate fd
  | _ => True

/-- The lines of what has arrived are shorter than the array they are taken into. -/
def Short (s : AdminSession κ) : AdminOp κ → Prop
  | .read fd cb => ∀ line ∈ (s.received fd ++ s.arriving fd cb).splitOn lf, line.length < lineSize
  | _ => True

instance (s : AdminSession κ) : DecidablePred s.Short
  | .read _ _ => inferInstanceAs (Decidable (∀ line ∈ _, _))
  | .register _ _ => .isTrue trivial
  | .unregister _ => .isTrue trivial
  | .registerCommand _ _ => .isTrue trivial

/-- The first line that a `Read` completes has no zero byte, and no line ends behind it. -/
def LineByLine (s : AdminSession κ) : AdminOp κ → Prop
  | .read fd cb => ∀ readBuf, s.manager.connections fd = some readBuf →
      ∀ line r, readBuf.contents ++ readBuf.delivered cb = line ++ lf :: r → lf ∉ line →
        0 ∉ line ∧ lf ∉ r
  | _ => True

/-! ### The invariant -/

/-- A connection is up to date with a buffer of the capacity all have. -/
structure Held (s : AdminSession κ) (fd : ℤ) (readBuf : BipBuf .uint64 UInt8) : Prop where
  rep : readBuf.Rep (Lines.rest lf (s.received fd))
  capacity_eq : readBuf.capacity = bufCapacity.val
  dispatched_eq : s.dispatched fd = commands (s.received fd)

def Sound (s : AdminSession κ) : Prop :=
  ∀ fd readBuf, s.manager.connections fd = some readBuf → s.Held fd readBuf

variable {s : AdminSession κ} {fd : ℤ} {readBuf : BipBuf .uint64 UInt8} {cb : Reader UInt8}

theorem sound_new : (new : AdminSession κ).Sound := fun _ _ hcon ↦ absurd hcon (by simp [new,
  AdminManager.new])

theorem arriving_of_some (hcon : s.manager.connections fd = some readBuf) :
    s.arriving fd cb = readBuf.delivered cb := by
  rw [arriving, hcon]

theorem read_cases (h : s.Held fd readBuf) (hcon : s.manager.connections fd = some readBuf)
    (hshort : s.Short (.read fd cb)) :
    ∃ con, (s.step (.read fd cb)).1.manager = s.manager.setConnection fd (some con) ∧
      con.capacity = bufCapacity.val ∧
      ((lf ∉ readBuf.contents ++ readBuf.delivered cb ∧
          con.Rep (readBuf.contents ++ readBuf.delivered cb) ∧
          (s.step (.read fd cb)).1.dispatched fd = commands (s.received fd)) ∨
        ∃ line r, readBuf.contents ++ readBuf.delivered cb = line ++ lf :: r ∧ lf ∉ line ∧
          con.Rep r ∧ (s.step (.read fd cb)).1.dispatched fd
            = commands (s.received fd) ++ [command (Head.cStr line)].filter (· ≠ [])) := by
  have hrep := BipBuf.readv_rep h.rep (h.capacity_eq.trans_le (by decide)) cb
  have hdispatched : (s.step (.read fd cb)).1.dispatched fd = commands (s.received fd) ++
      (s.manager.read fd cb).dispatched.toList.map Dispatch.cmd := by
    rw [← h.dispatched_eq]
    exact Function.update_self ..
  rw [Short, arriving_of_some hcon] at hshort
  rw [hdispatched, h.rep.contents_eq]
  by_cases hmem : lf ∈ Lines.rest lf (s.received fd) ++ readBuf.delivered cb
  · obtain ⟨line, r, heq, hline⟩ := List.eq_append_cons_of_mem hmem
    have hlen : line.length < lineSize := by
      refine hshort line (Lines.mem_splitOn_of_mem_complete ?_)
      rw [Lines.complete_append, heq, Lines.complete_line_append hline]
      exact List.mem_append_right _ (List.mem_cons_self ..)
    obtain ⟨con, hmanager, hcon', hcap, hcmd⟩ := read_of_line hcon (heq ▸ hrep) hline hlen
    refine ⟨con, hmanager, hcap.trans h.capacity_eq, Or.inr ⟨line, r, heq, hline, hcon', ?_⟩⟩
    rw [hcmd, dispatch_cmd]
  · obtain ⟨con, hmanager, hcon', hcap, hcmd⟩ := read_of_not_mem hcon hrep hmem
    refine ⟨con, hmanager, hcap.trans h.capacity_eq, Or.inl ⟨hmem, hcon', ?_⟩⟩
    rw [hcmd, Option.toList_none, List.map_nil, List.append_nil]

theorem received_read (hcon : s.manager.connections fd = some readBuf) :
    (s.step (.read fd cb)).1.received fd = s.received fd ++ readBuf.delivered cb := by
  rw [← arriving_of_some hcon]
  exact Function.update_self ..

/-- One `Read` keeps up exactly if it gets its lines one by one. -/
theorem keepsUp_read_iff (h : s.Held fd readBuf) (hcon : s.manager.connections fd = some readBuf)
    (hshort : s.Short (.read fd cb)) :
    s.KeepsUp (.read fd cb) ↔ s.LineByLine (.read fd cb) := by
  obtain ⟨con, hmanager, -, hcases⟩ := read_cases h hcon hshort
  have hcon' : (s.step (.read fd cb)).1.manager.connections fd = some con := by
    rw [hmanager, setConnection_self]
  have hkeeps : s.KeepsUp (.read fd cb) ↔ (s.step (.read fd cb)).1.dispatched fd
      = commands (s.received fd) ++ commands (readBuf.contents ++ readBuf.delivered cb) ∧
        con.contents = Lines.rest lf (readBuf.contents ++ readBuf.delivered cb) := by
    rw [KeepsUp, UpToDate, received_read hcon, commands_append, Lines.rest_append,
      ← h.rep.contents_eq]
    exact ⟨fun hup ↦ hup con hcon', fun hup con' heq ↦ by
      obtain rfl : con = con' := Option.some.inj (hcon'.symm.trans heq)
      exact hup⟩
  have hline : s.LineByLine (.read fd cb) ↔ ∀ line r,
      readBuf.contents ++ readBuf.delivered cb = line ++ lf :: r → lf ∉ line →
        0 ∉ line ∧ lf ∉ r :=
    ⟨fun hall ↦ hall readBuf hcon, fun hall con' heq ↦ by
      obtain rfl : readBuf = con' := Option.some.inj (hcon.symm.trans heq)
      exact hall⟩
  rw [hkeeps, hline]
  rcases hcases with ⟨hmem, hrep, hdispatched⟩ | ⟨line, r, heq, hlf, hrep, hdispatched⟩
  · rw [hdispatched, commands_of_not_mem hmem, List.append_nil, hrep.contents_eq,
      Lines.rest_of_not_mem hmem]
    refine iff_of_true ⟨rfl, rfl⟩ fun line r heq _ ↦ absurd ?_ hmem
    rw [heq]
    exact List.mem_append_right _ (List.mem_cons_self ..)
  · rw [heq, hdispatched, commands_line_append hlf, Lines.rest_line_append hlf, hrep.contents_eq,
      List.append_cancel_left_eq]
    constructor
    · rintro ⟨hcmd, hrest⟩ line' r' heq' hlf'
      obtain ⟨rfl, rfl⟩ := Lines.line_append_inj hlf hlf' heq'
      have hr : lf ∉ r := Lines.rest_eq_self_iff.mp hrest.symm
      rw [commands_of_not_mem hr, List.append_nil] at hcmd
      exact ⟨command_cStr_eq_iff.mp (filter_singleton_inj hcmd), hr⟩
    · intro hall
      obtain ⟨hzero, hr⟩ := hall line r rfl hlf
      rw [commands_of_not_mem hr, List.append_nil, command_cStr_eq_iff.mpr hzero,
        Lines.rest_of_not_mem hr]
      exact ⟨rfl, rfl⟩

theorem Held.congr {s' : AdminSession κ} (h : s.Held fd readBuf)
    (hreceived : s'.received fd = s.received fd)
    (hdispatched : s'.dispatched fd = s.dispatched fd) : s'.Held fd readBuf :=
  ⟨hreceived ▸ h.rep, h.capacity_eq, by rw [hreceived, hdispatched, h.dispatched_eq]⟩

theorem Sound.read (h : s.Sound) (hshort : s.Short (.read fd cb))
    (hlines : s.LineByLine (.read fd cb)) : (s.step (.read fd cb)).1.Sound := by
  intro fd' readBuf' hcon'
  cases hcon : s.manager.connections fd with
  | none =>
    have hmanager : (s.step (.read fd cb)).1.manager = s.manager := by
      simp only [step, AdminManager.read, hcon]
    rw [hmanager] at hcon'
    have hne : fd' ≠ fd := fun heq ↦ by
      rw [heq, hcon] at hcon'
      exact absurd hcon' (by simp)
    exact (h fd' readBuf' hcon').congr (Function.update_of_ne hne ..) (Function.update_of_ne hne ..)
  | some readBuf =>
    obtain ⟨con, hmanager, hcap, hcases⟩ := read_cases (h fd readBuf hcon) hcon hshort
    obtain ⟨hdispatched, hrest⟩ := (keepsUp_read_iff (h fd readBuf hcon) hcon hshort).mpr hlines
      con (by rw [hmanager, setConnection_self])
    rw [hmanager] at hcon'
    by_cases hfd : fd' = fd
    · subst hfd
      rw [setConnection_self] at hcon'
      obtain rfl : con = readBuf' := Option.some.inj hcon'
      refine ⟨?_, hcap, hdispatched⟩
      rw [← hrest]
      rcases hcases with ⟨-, hrep, -⟩ | ⟨line, r, -, -, hrep, -⟩ <;> rwa [hrep.contents_eq]
    · rw [setConnection_of_ne _ _ hfd] at hcon'
      exact (h fd' readBuf' hcon').congr (Function.update_of_ne hfd ..)
        (Function.update_of_ne hfd ..)

/-- Every operation keeps the invariant, a `Read` if it gets its lines one by one. -/
theorem Sound.step (h : s.Sound) (op : AdminOp κ) (hshort : s.Short op) (hlines : s.LineByLine op) :
    (s.step op).1.Sound := by
  cases op with
  | register fd data =>
    intro fd' readBuf' hcon'
    cases hcon : s.manager.connections fd with
    | none =>
      simp only [AdminSession.step, register, hcon] at hcon' ⊢
      by_cases hfd : fd' = fd
      · subst hfd
        rw [setConnection_self] at hcon'
        obtain rfl : BipBuf.new data bufCapacity = readBuf' := Option.some.inj hcon'
        have hnil : lf ∉ [] := List.not_mem_nil
        refine ⟨?_, rfl, ?_⟩
        · simp only [Function.update_self, Lines.rest_of_not_mem hnil]
          exact BipBuf.rep_new data bufCapacity
        · simp only [Function.update_self, commands_of_not_mem hnil]
      · rw [setConnection_of_ne _ _ hfd] at hcon'
        exact (h fd' readBuf' hcon').congr (Function.update_of_ne hfd ..)
          (Function.update_of_ne hfd ..)
    | some con =>
      simp only [AdminSession.step, register, hcon] at hcon' ⊢
      exact h fd' readBuf' hcon'
  | unregister fd =>
    intro fd' readBuf' hcon'
    have hold : s.manager.connections fd' = some readBuf' := by
      cases hcon : s.manager.connections fd with
      | none =>
        simp only [AdminSession.step, unregister, hcon] at hcon'
        exact hcon'
      | some con =>
        simp only [AdminSession.step, unregister, hcon] at hcon'
        by_cases hfd : fd' = fd
        · subst hfd
          rw [setConnection_self] at hcon'
          exact absurd hcon' (by simp)
        · rwa [setConnection_of_ne _ _ hfd] at hcon'
    exact (h fd' readBuf' hold).congr rfl rfl
  | registerCommand name cb =>
    have hsame : (s.manager.registerCommand name cb).2.connections = s.manager.connections := by
      rw [registerCommand]
      split <;> rfl
    intro fd' readBuf' hcon'
    exact (h fd' readBuf' (hsame ▸ hcon')).congr rfl rfl
  | read fd cb => exact h.read hshort hlines

/-- **The admin socket keeps up exactly with clients that send line by line.** For lines shorter
than the array, each `Read` of a run leaves its connection up to date if and only if each gets at
most the end of one line, and this line has no zero byte. -/
theorem run_keepsUp_iff {ops : List (AdminOp κ)} (hshort : Run.Steps step Short new ops) :
    Run.Steps step KeepsUp new ops ↔ Run.Steps step LineByLine new ops := by
  refine Run.steps_iff_of_steps (P := Sound) (fun s op h hshort hlines ↦ h.step op hshort hlines)
    (fun s op h hshort ↦ ?_) sound_new hshort
  cases op with
  | register fd data => exact Iff.rfl
  | unregister fd => exact Iff.rfl
  | registerCommand name cb => exact Iff.rfl
  | read fd cb =>
    cases hcon : s.manager.connections fd with
    | none =>
      have hmanager : (s.step (.read fd cb)).1.manager = s.manager := by
        simp only [AdminSession.step, AdminManager.read, hcon]
      refine iff_of_true (fun readBuf hsome ↦ ?_) (fun readBuf hsome ↦ ?_)
      · rw [hmanager, hcon] at hsome
        exact absurd hsome (by simp)
      · rw [hcon] at hsome
        exact absurd hsome (by simp)
    | some readBuf => exact keepsUp_read_iff (h fd readBuf hcon) hcon hshort

/-- A client connects and sends one packet. -/
def onePacket (l : List UInt8) (hint : l.length < 2 ^ 31) : List (AdminOp Unit) :=
  [.register 7 fun _ ↦ 0, .read 7 (Reader.ofList l hint)]

/-- One line in one packet is dispatched. -/
theorem keepsUp_onePacket :
    Run.Steps step KeepsUp new (onePacket (ascii "stop kraken" ++ [lf]) (by decide)) := by
  have hshort : Run.Steps step Short new (onePacket (ascii "stop kraken" ++ [lf]) (by decide)) := by
    decide
  refine (run_keepsUp_iff hshort).mpr ⟨trivial, ?_, trivial⟩
  intro readBuf hcon line r heq hlf
  obtain rfl : BipBuf.new (fun _ ↦ 0) bufCapacity = readBuf := Option.some.inj hcon
  have hbytes : ascii "stop kraken" ++ lf :: [] = line ++ lf :: r := by
    rw [← heq]
    decide
  obtain ⟨rfl, rfl⟩ := Lines.line_append_inj (by decide) hlf hbytes
  decide

/-- Of two lines in one packet the second one stays in the buffer. -/
theorem not_keepsUp_of_two_lines :
    ¬∀ ops : List (AdminOp Unit), Run.Steps step Short new ops →
      Run.Steps step KeepsUp new ops := by
  intro h
  have hsteps := h (onePacket (ascii "stop kraken" ++ [lf] ++ (ascii "stop coinbase" ++ [lf]))
    (by decide)) (by decide)
  obtain ⟨hdispatched, -⟩ := hsteps.2.1 _ rfl
  exact absurd hdispatched (by decide)

end AdminSession

end Coypu
