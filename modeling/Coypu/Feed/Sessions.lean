import Coypu.Feed.Supervision
import Coypu.Net.OpenSSLManager

/-!
# The sessions of the feeds

`StreamGDAX` and `StreamKraken` register their connections with the `OpenSSLManager`, and `closeSSL`
unregisters them. Over any run the sessions that the library has made and not freed are those of the
open connections, no session is freed twice, and `Register` finds no session where it makes one
(`run_sessions`).
-/

set_option autoImplicit false

namespace Coypu

open Kraken

namespace OpenSSLManager

variable {m : OpenSSLManager} {fd fd' session : ℕ}

theorem join_set {l : List (Option ℕ)} {i : ℕ} (hi : i < l.length) (a : Option ℕ) (j : ℕ) :
    (l.set i a)[j]?.join = if j = i then a else l[j]?.join := by
  rw [List.getElem?_set]
  by_cases h : i = j
  · rw [if_pos h, if_pos h.symm, if_pos hi, Option.join_some]
  · rw [if_neg h, if_neg (Ne.symm h)]

theorem join_append_replicate (l : List (Option ℕ)) (k j : ℕ) :
    (l ++ List.replicate k none)[j]?.join = l[j]?.join := by
  by_cases h : j < l.length
  · rw [List.getElem?_append_left h]
  · rw [List.getElem?_append_right (Nat.not_lt.mp h), List.getElem?_replicate,
      List.getElem?_eq_none (Nat.not_lt.mp h)]
    split_ifs <;> rfl

theorem find_eq_ok : m.find fd = .ok session ↔ m.fdToCon[fd]?.join = some session := by
  rw [find]
  split
  · next h => simp [h]
  · next h => simp [h]
  · next h => simp [h]

theorem register_of_none (h : m.fdToCon[fd]?.join = none) :
    ∃ m' : OpenSSLManager, m.register fd = some (m', m.sessions) ∧
      m'.sessions = m.sessions + 1 ∧ ∀ fd', m'.fdToCon[fd']?.join =
        if fd' = fd then some m.sessions else m.fdToCon[fd']?.join := by
  have hslot := join_append_replicate m.fdToCon (fd + 1 - m.fdToCon.length)
  have hlength : fd < (m.fdToCon ++ List.replicate (fd + 1 - m.fdToCon.length) none).length := by
    rw [List.length_append, List.length_replicate]
    omega
  refine ⟨_, if_pos ((hslot fd).trans h), rfl, fun fd' ↦ ?_⟩
  rw [join_set hlength, hslot fd']

theorem unregister_of_some (h : m.fdToCon[fd]?.join = some session) :
    ∃ m' : OpenSSLManager, m.unregister fd = (0, m', some session) ∧ m'.sessions = m.sessions ∧
      ∀ fd', m'.fdToCon[fd']?.join = if fd' = fd then none else m.fdToCon[fd']?.join := by
  have hlength : fd < m.fdToCon.length := by
    by_contra hge
    rw [List.getElem?_eq_none (Nat.not_lt.mp hge)] at h
    exact Option.some_ne_none _ h.symm
  refine ⟨⟨m.fdToCon.set fd none, m.sessions⟩, ?_, rfl, fun fd' ↦ join_set hlength none fd'⟩
  rw [unregister, find_eq_ok.mpr h]

end OpenSSLManager

/-- The context with the manager of its sessions, and the sessions that the library has, with the
file descriptors that they were set to. -/
structure TlsContext where
  context : CoypuContext
  manager : OpenSSLManager
  live : ℕ → Option ℕ

/-- What a step makes of the sessions: it makes one, or frees one, and an assertion may fail. -/
inductive SessionCall
  | none
  | made (session : ℕ)
  | freed (ret : ℤ) (session : Option ℕ)
  | asserted
deriving DecidableEq

namespace TlsContext

open CoypuContext OpenSSLManager

variable {D : Type*} (c : PageLayout) (n : Numbers D) (s : TlsContext)

def main (doGdax doKraken : Bool) : TlsContext := ⟨.main doGdax doKraken, .new, fun _ ↦ none⟩

/-- A connection is made. -/
def register (context : CoypuContext) (fd : ℕ) : TlsContext × SessionCall :=
  match s.manager.register fd with
  | none => ({ s with context := context }, .asserted)
  | some (manager, session) =>
    (⟨context, manager, Function.update s.live session (some fd)⟩, .made session)

/-- A connection is closed. -/
def unregister (context : CoypuContext) (fd : ℕ) : TlsContext × SessionCall :=
  let r := s.manager.unregister fd
  (⟨context, r.2.1, r.2.2.elim s.live fun session ↦ Function.update s.live session none⟩,
    .freed r.1 r.2.2)

/-- A step that connects a source registers its file descriptor, and one that closes a connection
unregisters it. -/
def step (op : ContextOp) : TlsContext × SessionCall :=
  let r := s.context.step c n op
  match op with
  | .round fd =>
    if ∃ e ∈ [FeedSource.gdax, FeedSource.kraken], e.wsConnect ∈ r.2.elim [] ContextTrace.ran then
      s.register r.1 fd.toNat
    else ({ s with context := r.1 }, .none)
  | .close fd => s.unregister r.1 fd
  | _ => ({ s with context := r.1 }, .none)

/-- A session that is made is new, and one that is freed is the one of the file descriptor. -/
def Sound (op : ContextOp) : Prop :=
  match (s.step c n op).2 with
  | .none => True
  | .made session => s.live session = none
  | .freed ret session => ret = 0 ∧ ∃ fd t, op = .close fd ∧ session = some t ∧
      s.live t = some fd
  | .asserted => False

/-- The sessions that the library has are those of the open connections. -/
def Agree : Prop :=
  (∀ fd session, s.manager.find fd = .ok session ↔ s.live session = some fd) ∧
    ∀ fd, (∃ e, s.context.connections fd = some e) ↔ ∃ session, s.live session = some fd

structure Inv : Prop where
  wired : s.context.Wired
  find_iff : ∀ fd session, s.manager.fdToCon[fd]?.join = some session ↔ s.live session = some fd
  open_iff : ∀ fd, (∃ e, s.context.connections fd = some e) ↔ ∃ session, s.live session = some fd
  new : ∀ session, s.manager.sessions ≤ session → s.live session = none

variable {c n s}

theorem inv_main (doGdax doKraken : Bool) : (main doGdax doKraken).Inv where
  wired := .main doGdax doKraken
  find_iff fd session := by simp [main, OpenSSLManager.new]
  open_iff fd := by simp [main, CoypuContext.main]
  new _ _ := rfl

theorem Inv.agree (h : s.Inv) : s.Agree :=
  ⟨fun fd session ↦ find_eq_ok.trans (h.find_iff fd session), h.open_iff⟩

theorem Inv.register (h : s.Inv) {context : CoypuContext} (hwired : context.Wired) {fd : ℕ}
    (hnone : s.context.connections fd = none) {e : FeedSource}
    (hconnections : context.connections = Function.update s.context.connections fd (some e)) :
    (s.register context fd).1.Inv ∧ (s.register context fd).2 = .made s.manager.sessions := by
  have hslot : s.manager.fdToCon[fd]?.join = none := by
    rw [Option.eq_none_iff_forall_ne_some]
    intro session hsession
    obtain ⟨e', he'⟩ := (h.open_iff fd).mpr ⟨session, (h.find_iff fd session).mp hsession⟩
    rw [hnone] at he'
    exact Option.some_ne_none _ he'.symm
  obtain ⟨m', hm', hsessions, hslots⟩ := register_of_none hslot
  have hfresh := h.new s.manager.sessions (Nat.le_refl _)
  rw [TlsContext.register, hm']
  refine ⟨⟨hwired, fun fd' session ↦ ?_, fun fd' ↦ ?_, fun session hle ↦ ?_⟩, rfl⟩
  · simp only [hslots fd', Function.update_apply]
    have hold := h.find_iff fd' session
    split_ifs with hfd hsession hsession
    · simp only [hfd, hsession]
    · rw [← hold, hfd, hslot]
      simp only [Option.some.injEq, reduceCtorEq, iff_false]
      exact Ne.symm hsession
    · rw [hold, hsession, hfresh]
      simp only [Option.some.injEq, reduceCtorEq, false_iff]
      exact Ne.symm hfd
    · exact hold
  · simp only [hconnections, Function.update_apply]
    have hold := h.open_iff fd'
    split_ifs with hfd
    · refine iff_of_true ⟨e, rfl⟩ ⟨s.manager.sessions, ?_⟩
      rw [if_pos rfl, hfd]
    · rw [hold]
      refine exists_congr fun session ↦ ?_
      split_ifs with hsession
      · rw [hsession, hfresh]
        simp only [Option.some.injEq, reduceCtorEq, false_iff]
        exact Ne.symm hfd
      · exact Iff.rfl
  · simp only [hsessions] at hle
    exact (Function.update_of_ne (by omega) ..).trans (h.new session (by omega))

theorem Inv.unregister (h : s.Inv) {context : CoypuContext} (hwired : context.Wired) {fd : ℕ}
    {e : FeedSource} (hfd : s.context.connections fd = some e)
    (hconnections : context.connections = Function.update s.context.connections fd none) :
    (s.unregister context fd).1.Inv ∧ ∃ session, s.live session = some fd ∧
      (s.unregister context fd).2 = .freed 0 (some session) := by
  obtain ⟨session, hlive⟩ := (h.open_iff fd).mp ⟨e, hfd⟩
  have hslot := (h.find_iff fd session).mpr hlive
  obtain ⟨m', hm', hsessions, hslots⟩ := unregister_of_some hslot
  rw [TlsContext.unregister, hm']
  refine ⟨⟨hwired, fun fd' session' ↦ ?_, fun fd' ↦ ?_, fun session' hle ↦ ?_⟩, session, hlive, rfl⟩
  · simp only [hslots fd', Option.elim_some, Function.update_apply]
    have hold := h.find_iff fd' session'
    split_ifs with hfd' hsession hsession
    · exact Iff.rfl
    · rw [← hold, hfd', hslot]
      simp only [Option.some.injEq, false_iff]
      exact Ne.symm hsession
    · rw [hold, hsession, hlive]
      simp only [Option.some.injEq, iff_false]
      exact Ne.symm hfd'
    · exact hold
  · simp only [hconnections, Option.elim_some, Function.update_apply]
    have hold := h.open_iff fd'
    split_ifs with hfd'
    · refine iff_of_false (by simp) ?_
      rintro ⟨session', hsession'⟩
      split_ifs at hsession' with hne
      -- a file descriptor has one session
      have hsame := (h.find_iff fd' session').mpr hsession'
      rw [hfd', hslot] at hsame
      exact hne (Option.some.inj hsame).symm
    · rw [hold]
      refine exists_congr fun session' ↦ ?_
      split_ifs with hsession
      · rw [hsession, hlive]
        simp only [Option.some.injEq, iff_false]
        exact Ne.symm hfd'
      · exact Iff.rfl
  · simp only [Option.elim_some, Function.update_apply]
    split_ifs
    · rfl
    · exact h.new session' (hsessions ▸ hle)

theorem connections_closeSSL (context : CoypuContext) (e : FeedSource) (fd : ℕ) :
    (context.closeSSL e fd).connections = Function.update context.connections fd none := by
  cases e with
  | gdax => rfl
  | kraken =>
    rw [closeSSL]
    dsimp only
    split_ifs <;> rfl

variable (c n) in
theorem connections_round {context : CoypuContext} (h : context.Wired) {fd : ℤ}
    (hop : context.Possible (.round fd)) :
    (∃ e : FeedSource, e.wsConnect ∈ (context.step c n (.round fd)).2.elim [] ContextTrace.ran ∧
      (context.step c n (.round fd)).1.connections =
        Function.update context.connections fd.toNat (some e)) ∨
    ((∀ e : FeedSource, e.wsConnect ∉
        (context.step c n (.round fd)).2.elim [] ContextTrace.ran) ∧
      (context.step c n (.round fd)).1.connections = context.connections) := by
  rcases round_cases c n h.manager hop with
    ⟨-, m, -, -, -, heq⟩ | ⟨u, queue, -, -, heq⟩
  · rw [heq]
    exact .inr ⟨fun e ↦ List.not_mem_nil, rfl⟩
  rw [heq]
  rcases callback_cases (s := context.popped queue) hop.2.1 u
    with ⟨e, rfl, hcall⟩ | ⟨e, rfl, hcall⟩ | ⟨hne, hcall⟩
  · rw [hcall]
    refine .inr ⟨fun e' he' ↦ e.bookClear_ne e' (List.mem_singleton.mp he').symm, ?_⟩
    cases e <;> rfl
  · rw [hcall]
    exact .inl ⟨e, List.mem_singleton_self _, rfl⟩
  · rw [hcall]
    exact .inr ⟨fun e he ↦ (hne e).2 (List.mem_singleton.mp he).symm, rfl⟩

theorem Inv.congr (h : s.Inv) {context : CoypuContext} (hwired : context.Wired)
    (hconnections : context.connections = s.context.connections) :
    Inv { s with context := context } :=
  ⟨hwired, h.find_iff, hconnections ▸ h.open_iff, h.new⟩

variable (c n) in
/-- **A step.** -/
theorem Inv.step (h : s.Inv) {op : ContextOp} (hop : s.context.Possible op) :
    s.Sound c n op ∧ (s.step c n op).1.Inv := by
  have hwired := h.wired.step (c := c) (n := n) hop
  cases op with
  | event readable writable => exact ⟨trivial, h.congr hwired rfl⟩
  | round fd =>
    unfold Sound
    rcases connections_round c n h.wired hop with ⟨e, he, hconnections⟩ | ⟨hnone, hconnections⟩
    · have hstep : s.step c n (.round fd) =
          s.register (s.context.step c n (.round fd)).1 fd.toNat :=
        if_pos ⟨e, by cases e <;> simp, he⟩
      obtain ⟨hinv, hmade⟩ := h.register hwired hop.2.2 hconnections
      rw [hstep, hmade]
      exact ⟨h.new _ (Nat.le_refl _), hinv⟩
    · have hstep : s.step c n (.round fd) =
          ({ s with context := (s.context.step c n (.round fd)).1 }, .none) := by
        refine if_neg ?_
        rintro ⟨e, -, he⟩
        exact hnone e he
      rw [hstep]
      exact ⟨trivial, h.congr hwired hconnections⟩
  | close fd =>
    obtain ⟨e, he⟩ := Option.ne_none_iff_exists'.mp hop.1
    have hcontext : (s.context.step c n (.close fd)).1 = s.context.closeSSL e fd := by
      simp only [CoypuContext.step, he]
    have hstep : s.step c n (.close fd) = s.unregister (s.context.closeSSL e fd) fd :=
      congrArg (s.unregister · fd) hcontext
    rw [hcontext] at hwired
    obtain ⟨hinv, session, hlive, hfreed⟩ :=
      h.unregister hwired he (connections_closeSSL s.context e fd)
    unfold Sound
    rw [hstep, hfreed]
    exact ⟨⟨rfl, fd, session, rfl, rfl, hlive⟩, hinv⟩
  | krakenText fd message => exact ⟨trivial, h.congr hwired rfl⟩
  | gdaxText fd message => exact ⟨trivial, h.congr hwired rfl⟩
  | adminQueue u => exact ⟨trivial, h.congr hwired rfl⟩
  | request request => exact ⟨trivial, h.congr hwired rfl⟩

/-- **Sessions follow the connections.** -/
theorem run_sessions (c : PageLayout) (n : Numbers D) (doGdax doKraken : Bool)
    (ops : List ContextOp)
    (hops : Run.Steps (step c n) (fun s op ↦ s.context.Possible op) (main doGdax doKraken) ops) :
    Run.Steps (step c n) (Sound c n) (main doGdax doKraken) ops ∧
      Run.Throughout (step c n) Agree (main doGdax doKraken) ops := by
  have hinv := inv_main doGdax doKraken
  refine ⟨Run.Steps.of_invariant (fun s op h hop ↦ (h.step c n hop).2)
    (fun s op h hop ↦ (h.step c n hop).1) hinv hops, ?_⟩
  exact (Run.Throughout.of_step (fun s op h hop ↦ (h.step c n hop).2) hinv hops).mono
    fun s h ↦ h.agree

/-- Kraken is connected, and again on another file descriptor. -/
theorem run_sessions_again :
    Run.Steps (step BookType ⟨id, Gdax.wholeCoins⟩) (Sound BookType ⟨id, Gdax.wholeCoins⟩)
        (main false true) [.event false true, .event true false, .round 7, .round 8, .close 7,
          .event false true, .event true false, .round 8, .round 9] ∧
      Run.Throughout (step BookType ⟨id, Gdax.wholeCoins⟩) Agree (main false true)
        [.event false true, .event true false, .round 7, .round 8, .close 7,
          .event false true, .event true false, .round 8, .round 9] :=
  run_sessions _ _ _ _ _ (by decide)

end TlsContext

end Coypu
