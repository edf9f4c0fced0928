import Dumboss.Logger.Model
import Dumboss.Lib.Runs

/-!
# Log lines of several cores (`kern/__lib_impl__.c`)

Any number of cores call `ext__log` and `ext__log_fmt`.  They share `LoggingMutex`, `buffer` and the
serial port, and a core makes one step per access to one of them.

* `Core`, `System`, `step`: the points of a call between two accesses.  The formatter does not read the
  buffer, so what a call stores is known when it begins; it makes the stores one at a time;
* `Progress`: the holder of the mutex has sent a part of its line, and the buffer, after the stores that
  are still to come, has the rest;
* `LinesInv`: the invariant, `step_inv` the step lemma;
* `Alone`: what a call sends when it runs alone; `lines_never_mix`.
-/

namespace Dumboss.Logger

/-- A core. -/
inductive Core
  | idle
  /-- In the loop around `Mutex__try_lock`. -/
  | locking (call : Call)
  /-- Formatting; the stores `todo` are still to be made. -/
  | writing (call : Call) (todo : List Store) (written : ℕ)
  /-- At the top of the loop that sends the buffer. -/
  | sending (call : Call) (i written : ℕ)
  /-- `buffer[i]` has been read. -/
  | loaded (call : Call) (i written : ℕ) (b : Byte)
  | unlocking (call : Call)

/-- The call for which a core holds the mutex. -/
def Core.holding : Core → Option Call
  | .idle => none
  | .locking _ => none
  | .writing call _ _ => some call
  | .sending call _ _ => some call
  | .loaded call _ _ _ => some call
  | .unlocking call => some call

/-- The shared state and the cores.  `sent` lists the calls that have sent their newline. -/
structure System where
  logger : State
  cores : ℕ → Core
  sent : List Call

def System.setCore (s : System) (c : ℕ) (core : Core) : System :=
  { s with cores := Function.update s.cores c core }

theorem System.setCore_self (s : System) (c : ℕ) (core : Core) : (s.setCore c core).cores c = core :=
  Function.update_self _ _ _

theorem System.setCore_of_ne (s : System) {c c' : ℕ} (core : Core) (h : c' ≠ c) :
    (s.setCore c core).cores c' = s.cores c' :=
  Function.update_of_ne h _ _

/-- The effect of a successful `Mutex__try_lock`: the formatting begins. -/
def afterLock (s : System) (c : ℕ) (call : Call) : Except FmtCall ℤ × List Store → Option System
  | (.ok written, stores) =>
    some (System.setCore { s with logger := { s.logger with loggingMutex := true } } c
      (.writing call stores written.toNat))
  | (.error _, _) => none

/-- One step of core `c`. -/
def stepCore (s : System) (c : ℕ) (spurious : Bool) : Core → Option System
  | .idle => none
  | .locking call =>
    if s.logger.loggingMutex = false ∧ spurious = false then afterLock s c call (call.format [])
    else some s
  | .writing call (x :: todo) written =>
    some (System.setCore { s with logger :=
      { s.logger with buffer := Function.update s.logger.buffer x.1 x.2 } } c (.writing call todo written))
  | .writing call [] written => some (s.setCore c (.sending call 0 written))
  | .sending call i written =>
    if i < written then some (s.setCore c (.loaded call i written (s.logger.buffer i)))
    else some (System.setCore { s with
      logger := { s.logger with serial := s.logger.serial ++ [10#8] }
      sent := s.sent ++ [call] } c (.unlocking call))
  | .loaded call i written b =>
    some (System.setCore { s with logger := { s.logger with serial := s.logger.serial ++ [b] } } c
      (.sending call (i + 1) written))
  | .unlocking _ =>
    some (System.setCore { s with logger := { s.logger with loggingMutex := false } } c .idle)

/-- What happens next: a core makes a call, or a core makes a step, whose compare-exchange may fail
spuriously. -/
inductive Event
  | call (c : ℕ) (call : Call)
  | run (c : ℕ) (spurious : Bool)

/-- The effect of an event, if it can happen. -/
def step (s : System) : Event → Option System
  | .call c call =>
    match s.cores c with
    | .idle => some (s.setCore c (.locking call))
    | _ => none
  | .run c spurious => stepCore s c spurious (s.cores c)

/-- The calls are well-formed. -/
def GoodCall (_ : System) : Event → Prop
  | .call _ call => call.WellFormed
  | .run _ _ => True

def initialSystem (buffer : ℕ → Byte) : System := ⟨⟨false, buffer, []⟩, fun _ => .idle, []⟩

/-! ### The invariant -/

/-- The buffer begins with what is to be sent of the text. -/
def Buffered (text : List Byte) (buffer : ℕ → Byte) : Prop :=
  ∀ i < (clipped text).length, (clipped text)[i]? = some (buffer i)

/-- The core holds the mutex for a call with this text, and has sent some bytes of its line. -/
inductive Progress (buffer : ℕ → Byte) (call : Call) (text : List Byte) : Core → List Byte → Prop
  | writing {todo : List Store} (h : Buffered text (applyStores todo buffer)) :
      Progress buffer call text (.writing call todo (clipped text).length) []
  | sending {i : ℕ} (hi : i ≤ (clipped text).length) (h : Buffered text buffer) :
      Progress buffer call text (.sending call i (clipped text).length) ((clipped text).take i)
  | loaded {i : ℕ} {b : Byte} (hb : (clipped text)[i]? = some b) (h : Buffered text buffer) :
      Progress buffer call text (.loaded call i (clipped text).length b) ((clipped text).take i)
  | unlocking : Progress buffer call text (.unlocking call) []

/-- The line of a call. -/
def Call.line (call : Call) : List Byte := clipped (call.text.getD []) ++ [10#8]

/-- The mutex is held by core `c` alone, and the serial port got the lines of the calls in `sent` and a
part of that of the holder. -/
structure HeldBy (s : System) (c : ℕ) (call : Call) (text : List Byte) (part : List Byte) : Prop where
  wellFormed : call.WellFormed
  hasText : call.text = some text
  progress : Progress s.logger.buffer call text (s.cores c) part
  alone : ∀ c', c' ≠ c → (s.cores c').holding = none
  serial : s.logger.serial = (s.sent.map Call.line).flatten ++ part

structure LinesInv (s : System) : Prop where
  waiting : ∀ c call, s.cores c = .locking call → call.WellFormed
  sent : ∀ call ∈ s.sent, call.WellFormed
  free : s.logger.loggingMutex = false →
    (∀ c, (s.cores c).holding = none) ∧ s.logger.serial = (s.sent.map Call.line).flatten
  locked : s.logger.loggingMutex = true → ∃ c call text part, HeldBy s c call text part

theorem Progress.holding {buffer : ℕ → Byte} {call : Call} {text part : List Byte} {core : Core}
    (h : Progress buffer call text core part) : core.holding = some call := by
  cases h with
  | writing h => rfl
  | sending hi h => rfl
  | loaded hb h => rfl
  | unlocking => rfl

theorem initial_inv (buffer : ℕ → Byte) : LinesInv (initialSystem buffer) where
  waiting c call h := by cases h
  sent call h := by cases h
  free _ := ⟨fun _ => rfl, rfl⟩
  locked h := by cases h

variable {s s' : System} {c : ℕ}

/-- A core that is past its lock is the holder. -/
theorem LinesInv.heldBy (h : LinesInv s) {core : Core} {call : Call} (hc : s.cores c = core)
    (hholding : core.holding = some call) :
    s.logger.loggingMutex = true ∧ ∃ text part, HeldBy s c call text part := by
  subst hc
  cases hm : s.logger.loggingMutex with
  | false =>
    rw [(h.free hm).1 c] at hholding
    cases hholding
  | true =>
    obtain ⟨c', call', text, part, hheld⟩ := h.locked hm
    by_cases hcc : c = c'
    · subst hcc
      obtain rfl : call' = call := Option.some.inj (hheld.progress.holding.symm.trans hholding)
      exact ⟨rfl, text, part, hheld⟩
    · rw [hheld.alone c hcc] at hholding
      cases hholding

/-- The cores after a step of core `c`, if no other core holds the mutex. -/
theorem alone_update {core : Core} (h : ∀ c', c' ≠ c → (s.cores c').holding = none) :
    ∀ c', c' ≠ c → (Function.update s.cores c core c').holding = none := by
  intro c' hc'
  rw [Function.update_of_ne hc']
  exact h c' hc'

theorem waiting_update (h : LinesInv s) {core : Core}
    (hcore : ∀ call, core = .locking call → call.WellFormed) (c' : ℕ) (call : Call)
    (hc' : Function.update s.cores c core c' = .locking call) : call.WellFormed := by
  by_cases hcc : c' = c
  · subst hcc
    rw [Function.update_self] at hc'
    exact hcore call hc'
  · rw [Function.update_of_ne hcc] at hc'
    exact h.waiting c' call hc'

/-- The invariant after a step of the holder of the mutex that leaves it the holder. -/
theorem LinesInv.of_progress (h : LinesInv s) {core : Core} {logger : State} {sent : List Call}
    {call : Call} {text part : List Byte} (hwell : call.WellFormed) (htext : call.text = some text)
    (hsent : ∀ call ∈ sent, call.WellFormed) (hm : logger.loggingMutex = true)
    (halone : ∀ c', c' ≠ c → (s.cores c').holding = none)
    (hprogress : Progress logger.buffer call text core part)
    (hserial : logger.serial = (sent.map Call.line).flatten ++ part) :
    LinesInv ⟨logger, Function.update s.cores c core, sent⟩ where
  waiting := by
    apply waiting_update h
    rintro call' rfl
    cases hprogress
  sent := hsent
  free hfree := by
    rw [hm] at hfree
    cases hfree
  locked _ := by
    refine ⟨c, call, text, part, hwell, htext, ?_, alone_update halone, hserial⟩
    show Progress logger.buffer call text (Function.update s.cores c core c) part
    rwa [Function.update_self]

/-- A core begins a call. -/
theorem call_inv (h : LinesInv s) {call : Call} (hwell : call.WellFormed) (hidle : s.cores c = .idle) :
    LinesInv (s.setCore c (.locking call)) where
  waiting := by
    apply waiting_update h
    rintro call' hcall
    cases hcall
    exact hwell
  sent := h.sent
  free hm := by
    obtain ⟨hnone, hserial⟩ := h.free hm
    refine ⟨fun c' => ?_, hserial⟩
    by_cases hcc : c' = c
    · subst hcc
      rw [System.setCore_self]
      rfl
    · exact alone_update (fun c' _ => hnone c') c' hcc
  locked hm := by
    obtain ⟨d, call', text, part, hheld⟩ := h.locked hm
    have hdc : d ≠ c := by
      rintro rfl
      have hholding := hheld.progress.holding
      rw [hidle] at hholding
      cases hholding
    refine ⟨d, call', text, part, hheld.wellFormed, hheld.hasText, ?_, ?_, hheld.serial⟩
    · rw [System.setCore_of_ne _ _ hdc]
      exact hheld.progress
    · intro c' hc'
      by_cases hcc : c' = c
      · subst hcc
        rw [System.setCore_self]
        rfl
      · rw [System.setCore_of_ne _ _ hcc]
        exact hheld.alone c' hc'

/-- A core locks the mutex. -/
theorem afterLock_inv (h : LinesInv s) {call : Call} (hc : s.cores c = .locking call)
    (hm : s.logger.loggingMutex = false) (hs : afterLock s c call (call.format []) = some s') :
    LinesInv s' := by
  have hwell := h.waiting c call hc
  obtain ⟨text, htext, hformat⟩ := format_text hwell
  obtain ⟨hnone, hserial⟩ := h.free hm
  rw [hformat, afterLock, Int.toNat_natCast] at hs
  cases hs
  refine h.of_progress hwell htext h.sent rfl (fun c' _ => hnone c') (.writing ?_)
    (hserial.trans (List.append_nil _).symm)
  intro i hi
  exact applyStores_textStores text _ hi

/-- The holder sends its newline. -/
theorem newline_inv (h : LinesInv s) {call : Call} {i written : ℕ}
    (hc : s.cores c = .sending call i written) (hi : ¬ i < written) :
    LinesInv ⟨{ s.logger with serial := s.logger.serial ++ [10#8] },
      Function.update s.cores c (.unlocking call), s.sent ++ [call]⟩ := by
  obtain ⟨hm, text, part, hheld⟩ := h.heldBy hc rfl
  have hprogress := hheld.progress
  rw [hc] at hprogress
  cases hprogress with
  | sending hle hbuf =>
    have hall : (clipped text).take i = clipped text := List.take_of_length_le (not_lt.1 hi)
    refine h.of_progress hheld.wellFormed hheld.hasText ?_ hm hheld.alone .unlocking ?_
    · intro call' hcall
      rcases List.mem_append.1 hcall with hcall | hcall
      · exact h.sent call' hcall
      · rw [List.mem_singleton.1 hcall]
        exact hheld.wellFormed
    · show s.logger.serial ++ [10#8] = _
      rw [hheld.serial, hall, List.map_append, List.flatten_append, List.append_nil, List.append_assoc,
        List.map_singleton, List.flatten_singleton, Call.line, hheld.hasText, Option.getD_some]

/-- The holder unlocks the mutex. -/
theorem unlock_inv (h : LinesInv s) {call : Call} (hc : s.cores c = .unlocking call) :
    LinesInv ⟨{ s.logger with loggingMutex := false }, Function.update s.cores c .idle, s.sent⟩ := by
  obtain ⟨hm, text, part, hheld⟩ := h.heldBy hc rfl
  have hprogress := hheld.progress
  have hserial := hheld.serial
  rw [hc] at hprogress
  cases hprogress
  refine ⟨waiting_update h (fun _ hcall => by cases hcall), h.sent, fun _ => ⟨fun c' => ?_, ?_⟩,
    fun hlocked => by cases hlocked⟩
  · by_cases hcc : c' = c
    · subst hcc
      show (Function.update s.cores c' Core.idle c').holding = none
      rw [Function.update_self]
      rfl
    · exact alone_update hheld.alone c' hcc
  · exact hserial.trans (List.append_nil _)

/-- **Step lemma.** -/
theorem stepCore_inv (h : LinesInv s) {spurious : Bool}
    (hs : stepCore s c spurious (s.cores c) = some s') : LinesInv s' := by
  cases hc : s.cores c with
  | idle =>
    rw [hc] at hs
    cases hs
  | locking call =>
    rw [hc, stepCore] at hs
    split_ifs at hs with hfree
    · exact afterLock_inv h hc hfree.1 hs
    · cases hs
      exact h
  | writing call todo written =>
    obtain ⟨hm, text, part, hheld⟩ := h.heldBy hc rfl
    have hprogress := hheld.progress
    have hserial := hheld.serial
    rw [hc] at hprogress hs
    cases hprogress with
    | writing hbuf =>
      cases todo with
      | nil =>
        cases hs
        exact h.of_progress hheld.wellFormed hheld.hasText h.sent hm hheld.alone
          (.sending (Nat.zero_le _) hbuf) hserial
      | cons x todo =>
        cases hs
        exact h.of_progress hheld.wellFormed hheld.hasText h.sent hm hheld.alone (.writing hbuf) hserial
  | sending call i written =>
    rw [hc, stepCore] at hs
    split_ifs at hs with hi
    · obtain ⟨hm, text, part, hheld⟩ := h.heldBy hc rfl
      have hprogress := hheld.progress
      have hserial := hheld.serial
      rw [hc] at hprogress
      cases hs
      cases hprogress with
      | sending hle hbuf =>
        exact h.of_progress hheld.wellFormed hheld.hasText h.sent hm hheld.alone
          (.loaded (hbuf i hi) hbuf) hserial
    · cases hs
      exact newline_inv h hc hi
  | loaded call i written b =>
    obtain ⟨hm, text, part, hheld⟩ := h.heldBy hc rfl
    have hprogress := hheld.progress
    have hserial := hheld.serial
    rw [hc] at hprogress hs
    cases hs
    cases hprogress with
    | loaded hb hbuf =>
      obtain ⟨hi, hb'⟩ := List.getElem?_eq_some_iff.1 hb
      refine h.of_progress hheld.wellFormed hheld.hasText h.sent hm hheld.alone (.sending hi hbuf) ?_
      show s.logger.serial ++ [b] = _
      rw [hserial, List.append_assoc, List.take_add_one, hb]
      rfl
  | unlocking call =>
    rw [hc] at hs
    cases hs
    exact unlock_inv h hc

theorem step_inv {e : Event} (h : LinesInv s) (hg : GoodCall s e) (hs : step s e = some s') :
    LinesInv s' := by
  cases e with
  | call c call =>
    rw [step] at hs
    cases hc : s.cores c with
    | idle =>
      rw [hc] at hs
      cases hs
      exact call_inv h hg hc
    | _ =>
      rw [hc] at hs
      cases hs
  | run c spurious => exact stepCore_inv h hs

/-! ### The serial output -/

/-- The call, running alone from any state with a free mutex, sends `line`. -/
def Alone (call : Call) (line : List Byte) : Prop :=
  ∀ (depth : ℕ) (t : State), t.loggingMutex = false →
    ∃ t', call.run depth t = Except.ok ((), t') ∧ t'.serial = t.serial ++ line

theorem alone_line {call : Call} (h : call.WellFormed) : Alone call call.line := by
  intro depth t ht
  obtain ⟨text, buffer, htext, hrun⟩ := run_of_wellFormed h depth ht
  refine ⟨_, hrun, ?_⟩
  rw [Call.line, htext, Option.getD_some, List.append_assoc]

/-- What the holder has sent of its line is not all of it. -/
theorem Progress.proper {buffer : ℕ → Byte} {call : Call} {text part : List Byte} {core : Core}
    (h : Progress buffer call text core part) (htext : call.text = some text) :
    part <+: call.line ∧ part ≠ call.line := by
  have hpart : part <+: clipped text := by
    cases h with
    | writing h => exact List.nil_prefix
    | sending hi h => exact List.take_prefix _ _
    | loaded hb h => exact List.take_prefix _ _
    | unlocking => exact List.nil_prefix
  have hline : call.line = clipped text ++ [10#8] := by
    rw [Call.line, htext, Option.getD_some]
  rw [hline]
  refine ⟨hpart.trans (List.prefix_append _ _), ?_⟩
  rintro rfl
  have hle := hpart.length_le
  rw [List.length_append, List.length_singleton] at hle
  omega

/-- **Log lines do not mix.**  The serial port got the lines of the calls in `sent`, each what the call
sends when it runs alone, and a proper prefix of the line of the one core that holds the mutex. -/
theorem lines_never_mix {buffer : ℕ → Byte}
    (hr : Runs.Reach step GoodCall (initialSystem buffer) s) :
    ∃ lines part, List.Forall₂ Alone s.sent lines ∧ s.logger.serial = lines.flatten ++ part ∧
      (part = [] ∨ ∃ c call line, (s.cores c).holding = some call ∧
        (∀ c', c' ≠ c → (s.cores c').holding = none) ∧ Alone call line ∧ part <+: line ∧ part ≠ line) := by
  have h : LinesInv s := hr.invariant (initial_inv buffer) fun _ _ _ hi hg hs => step_inv hi hg hs
  have hlines : List.Forall₂ Alone s.sent (s.sent.map Call.line) := by
    rw [List.forall₂_map_right_iff, List.forall₂_same]
    exact fun call hcall => alone_line (h.sent call hcall)
  cases hm : s.logger.loggingMutex with
  | false => exact ⟨_, [], hlines, (h.free hm).2.trans (List.append_nil _).symm, Or.inl rfl⟩
  | true =>
    obtain ⟨c, call, text, part, hheld⟩ := h.locked hm
    obtain ⟨hshown, hne⟩ := hheld.progress.proper hheld.hasText
    exact ⟨_, part, hlines, hheld.serial, Or.inr ⟨c, call, call.line, hheld.progress.holding,
      hheld.alone, alone_line hheld.wellFormed, hshown, hne⟩⟩

/-- `ext__log` without arguments. -/
def logNothing : Call := .log ⟨none, 7⟩ 0 (makeAnyArray [])

/-- Core 0 locks the mutex, core 1 has to wait, core 0 sends its line, and core 1 sends a part of its
own. -/
def twoCores : List Event :=
  [.call 0 logNothing, .call 1 logNothing, .run 0 false, .run 1 false] ++
    List.replicate 21 (.run 0 false) ++ [.run 1 true] ++ List.replicate 14 (.run 1 false)

theorem twoCores_good : ∀ e ∈ twoCores, ∀ s, GoodCall s e := by
  have hwell : logNothing.WellFormed := by
    intro i hi
    omega
  intro e he s
  simp only [twoCores, List.mem_append, List.mem_cons, List.mem_replicate, List.not_mem_nil,
    or_false] at he
  rcases he with ((((rfl | rfl | rfl | rfl) | ⟨-, rfl⟩) | rfl) | ⟨-, rfl⟩)
  · exact hwell
  · exact hwell
  all_goals exact trivial

theorem lines_never_mix_two_cores :
    ∃ s, Runs.Reach step GoodCall (initialSystem fun _ => 0#8) s ∧ s.sent.length = 1 ∧
      s.logger.serial.length = 10 ∧ ∃ lines part, List.Forall₂ Alone s.sent lines ∧
        s.logger.serial = lines.flatten ++ part := by
  have hrun : (Runs.execute step (fun _ _ => true) (initialSystem fun _ => 0#8) twoCores).map
      (fun s => (s.sent.length, s.logger.serial.length)) = some (1, 10) := by decide +kernel
  obtain ⟨s, hs, hlength⟩ := Option.map_eq_some_iff.1 hrun
  have hr : Runs.Reach step GoodCall (initialSystem fun _ => 0#8) s :=
    (Runs.Reach.of_execute hs).mono fun s e he => twoCores_good e he.2 s
  obtain ⟨lines, part, hlines, hserial, -⟩ := lines_never_mix hr
  exact ⟨s, hr, congrArg Prod.fst hlength, congrArg Prod.snd hlength, lines, part, hlines, hserial⟩

end Dumboss.Logger
