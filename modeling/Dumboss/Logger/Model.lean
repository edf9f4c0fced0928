import Dumboss.Logger.Format
import Dumboss.Lib.Prog

/-!
# The logger (`kern/__lib_impl__.c`)

`ext__log` and `ext__log_fmt` lock `LoggingMutex`, format a line into the static `buffer`, send it to
the serial port byte by byte and unlock.  Here a call runs alone.

* `State`, `Stop`: the state, and how a call does not return;
* `logFormat`, `logFmtFormat`: what the two functions do between locking and sending;
* `extLog`, `extLogFmt`: the functions.  A call made on an error path is a call like any other, so
  `extLogFmt` is recursive; its first argument bounds how deep the calls nest;
* `Call.text`: prefix and rendering of a call, `clipped` what is sent of it; `format_text` and
  `format_fails` say what becomes of the formatting;
* `run_of_wellFormed`, `run_of_not_wellFormed`: what becomes of a call.
-/

namespace Dumboss.Logger

open Prog

/-! ### The functions -/

/-- `BUF_SIZE`. -/
def bufSize : ℕ := 200

/-- `UseInterrupts`; nothing stores to it. -/
def useInterrupts : Bool := false

/-- `LoggingMutex`, `buffer`, and the bytes sent to the serial port. -/
structure State where
  loggingMutex : Bool
  buffer : ℕ → Byte
  serial : List Byte

/-- How a call does not return. -/
inductive Stop
  /-- `Mutex__try_lock` fails again and again: the mutex is locked, by this very call. -/
  | selfLock
  /-- `exit`. -/
  | exit (s : State)
  /-- The calls nest too deep for the model. -/
  | tooDeep

abbrev Log (α : Type) := Prog Stop State α

/-- The loop around `Mutex__try_lock`. -/
def lock : Log Unit := do
  if (← get).loggingMutex then throw .selfLock
  modify fun s => { s with loggingMutex := true }

/-- `Mutex__unlock`. -/
def unlock : Log Unit := modify fun s => { s with loggingMutex := false }

/-- `serial__write`. -/
def serialWrite (a : Byte) : Log Unit := modify fun s => { s with serial := s.serial ++ [a] }

/-- The buffer after some stores. -/
def applyStores : List Store → (ℕ → Byte) → ℕ → Byte
  | [], buffer => buffer
  | x :: l, buffer => applyStores l (Function.update buffer x.1 x.2)

/-- `write_prefix_to_buffer`. -/
def writePrefixToBuffer (out : Str) (loc : Sloc) : Fmt ℤ :=
  anyFmt out (.lit "[%f:%f]: ") 2 (makeAnyArray [.charPtr loc.file, .u64 (loc.line.setWidth 64)])

/-- The whole buffer. -/
def out : Str := ⟨0, bufSize⟩

/-- The last step of the formatting, which both functions make. -/
def clip (written : ℤ) : Fmt ℤ := do
  if bufSize < written then
    let suffix := CString.lit "... [clipped]"
    let _ ← strcpyS (← strSuffix out (out.count - strlen (some suffix))) (some suffix)
    return bufSize
  else return written

/-- The loop of `ext__log`, over `n` arguments from number `i` on. -/
def logArgs (args : ℕ → Any) : ℕ → ℕ → ℤ → Fmt ℤ
  | 0, _, written => return written
  | n + 1, i, written => do
    let fmtTry ← anyFmtAny (← strSuffix out (min written bufSize)) (args i)
    assert (fmtTry ≥ 0) "fmt_try >= 0" "kern/__lib_impl__.c" 54
    logArgs args n (i + 1) (written + fmtTry)

/-- `ext__log`, from its lock to the first byte it sends. -/
def logFormat (loc : Sloc) (count : ℤ) (args : ℕ → Any) : Fmt ℤ := do
  let written ← writePrefixToBuffer out loc
  clip (← logArgs args count.toNat 0 written)

/-- `ext__log_fmt`, from its lock to the first byte it sends. -/
def logFmtFormat (call : FmtCall) : Fmt ℤ := do
  let written ← writePrefixToBuffer out call.loc
  let fmtTry ← anyFmt (← strSuffix out written) call.fmt call.count call.args
  if fmtTry < 0 then
    if fmtTry < -call.count - 1 then
      logAndExit call.loc "too many parameters (expected %f, got %f)" [.i64 (-fmtTry), .i64 call.count]
    else logAndExit call.loc "failed to log parameter at index %f" [.i64 (-fmtTry - 1)]
  clip (written + fmtTry)

/-- Formats into the buffer.  Where the formatting fails, `again` makes the call it fails with. -/
def onBuffer {α : Type} (again : FmtCall → Log Unit) (m : Fmt α) : Log α := do
  let r := m []
  modify fun s => { s with buffer := applyStores r.2 s.buffer }
  match r.1 with
  | .ok a => return a
  | .error call =>
    again call
    throw (.exit (← get))

/-- Sends `n` bytes of the buffer, from index `i` on. -/
def send : ℕ → ℕ → Log Unit
  | 0, _ => return
  | n + 1, i => do
    serialWrite ((← get).buffer i)
    send n (i + 1)

/-- A call that has locked the mutex. -/
def logLocked (again : FmtCall → Log Unit) (format : Fmt ℤ) : Log Unit := do
  let written ← onBuffer again format
  send written.toNat 0
  serialWrite 10#8
  unlock

/-- What the two functions have in common. -/
def logWith (again : FmtCall → Log Unit) (format : Fmt ℤ) : Log Unit := do
  if useInterrupts then return
  lock
  logLocked again format

/-- `ext__log_fmt`. -/
def extLogFmt : ℕ → FmtCall → Log Unit
  | 0, _ => throw .tooDeep
  | depth + 1, call => logWith (extLogFmt depth) (logFmtFormat call)

/-- `ext__log`. -/
def extLog (depth : ℕ) (loc : Sloc) (count : ℤ) (args : ℕ → Any) : Log Unit :=
  logWith (extLogFmt depth) (logFormat loc count args)

/-- A call of one of the two functions. -/
inductive Call
  | log (loc : Sloc) (count : ℤ) (args : ℕ → Any)
  | logFmt (call : FmtCall)

/-- The formatting of a call. -/
def Call.format : Call → Fmt ℤ
  | .log loc count args => logFormat loc count args
  | .logFmt call => logFmtFormat call

/-- The call, with at most `depth` calls nested in it. -/
def Call.run (depth : ℕ) : Call → Log Unit
  | .log loc count args => extLog depth loc count args
  | .logFmt call => extLogFmt (depth + 1) call

theorem Call.run_eq (depth : ℕ) (call : Call) :
    call.run depth = logWith (extLogFmt depth) call.format := by
  cases call with
  | log loc count args => rfl
  | logFmt call => rfl

/-! ### The text of a call -/

/-- The rendered prefix. -/
def prefixText (loc : Sloc) : List Byte :=
  91#8 :: (loc.file.elim [] CString.bytes ++ 58#8 ::
    ((ntoaBuffer (loc.line.setWidth 64) false).reverse ++ [93#8, 58#8, 32#8]))

/-- The texts of `n` arguments from number `i` on, one after the other. -/
def argsText (args : ℕ → Any) : ℕ → ℕ → Option (List Byte)
  | 0, _ => some []
  | n + 1, i => (args i).text.bind fun t => (argsText args n (i + 1)).map (t ++ ·)

/-- Prefix and rendering of a call, if there is one. -/
def Call.text : Call → Option (List Byte)
  | .log loc count args => (argsText args count.toNat 0).map (prefixText loc ++ ·)
  | .logFmt call => (render call.count call.args call.fmt.bytes 0).map (prefixText call.loc ++ ·)

def clippedSuffix : List Byte := (CString.lit "... [clipped]").bytes

/-- What is sent of a text. -/
def clipped (text : List Byte) : List Byte :=
  if bufSize < text.length then text.take (bufSize - clippedSuffix.length) ++ clippedSuffix else text

theorem clippedSuffix_length : clippedSuffix.length = 13 := by decide

theorem prefixFormat_bytes : (CString.lit "[%f:%f]: ").bytes =
    [91#8, 37#8, 102#8, 58#8, 37#8, 102#8, 93#8, 58#8, 32#8] := by decide

theorem writePrefixToBuffer_formats (out : Str) (loc : Sloc) :
    Formats (writePrefixToBuffer out loc) out (prefixText loc) := by
  apply anyFmt_render
  rw [prefixFormat_bytes]
  simp [render, makeAnyArray, Any.text, Any.charPtr, Any.u64, prefixText]

/-- The loop of `ext__log` passes an argument of a known type. -/
theorem logArgs_succ {args : ℕ → Any} {i : ℕ} {l : List Byte} (hl : (args i).text = some l)
    (n written : ℕ) (w : List Store) : logArgs args (n + 1) i written w =
      logArgs args n (i + 1) ((written + l.length : ℕ) : ℤ)
        (w ++ place (out.data + written) (l.take (out.count - written))) := by
  have hassert (w : List Store) :
      assert ((l.length : ℤ) ≥ 0) "fmt_try >= 0" "kern/__lib_impl__.c" 54 w = (Except.ok (), w) := by
    rw [assert, if_pos (Int.natCast_nonneg _)]
    rfl
  rw [logArgs, show bufSize = out.count from rfl, run_bind (strSuffix_min out written w),
    run_bind (anyFmtAny_behind hl out written w), run_bind (hassert _), Nat.cast_add]

theorem logArgs_text {args : ℕ → Any} (n i : ℕ) : ∀ {text}, argsText args n i = some text →
    ∀ (written : ℕ) (w : List Store), logArgs args n i written w =
      (Except.ok ((written + text.length : ℕ) : ℤ),
        w ++ place (out.data + written) (text.take (out.count - written))) := by
  induction n generalizing i with
  | zero =>
    intro text h written w
    cases h
    rw [logArgs, List.take_nil, place, List.append_nil]
    rfl
  | succ n ih =>
    intro text h written w
    obtain ⟨l, hl, h⟩ := Option.bind_eq_some_iff.1 h
    obtain ⟨rest, hrest, rfl⟩ := Option.map_eq_some_iff.1 h
    rw [logArgs_succ hl, ih _ hrest, place_piece, List.length_append, Nat.add_assoc]

theorem logArgs_fails {args : ℕ → Any} (n i : ℕ) (h : argsText args n i = none) (written : ℕ)
    (w : List Store) : ∃ call w', logArgs args n i written w = (Except.error call, w') := by
  induction n generalizing i written w with
  | zero => cases h
  | succ n ih =>
    cases hl : (args i).text with
    | none =>
      rw [logArgs, show bufSize = out.count from rfl, run_bind (strSuffix_min out written w),
        run_bind (anyFmtAny_unknown hl _ w)]
      exact ⟨_, w, rfl⟩
    | some l =>
      rw [argsText, hl, Option.bind_some] at h
      rw [logArgs_succ hl]
      exact ih _ (Option.map_eq_none_iff.1 h) _ _

/-- The stores that `clip` adds. -/
def clipStores (text : List Byte) : List Store :=
  if bufSize < text.length then place (bufSize - clippedSuffix.length) clippedSuffix else []

theorem clip_text (text : List Byte) (w : List Store) : clip text.length w =
    (Except.ok ((clipped text).length : ℤ), w ++ clipStores text) := by
  unfold clip clipped clipStores
  by_cases h : bufSize < text.length
  · have hbegin : (out.count : ℤ) - strlen (some (CString.lit "... [clipped]")) =
        ((bufSize - clippedSuffix.length : ℕ) : ℤ) := by decide
    have hsuffix : strSuffix out ((bufSize - clippedSuffix.length : ℕ) : ℤ) w =
        (Except.ok ⟨bufSize - clippedSuffix.length, clippedSuffix.length⟩, w) :=
      strSuffix_of_le (by decide) w
    have hcopy := strcpyLoop_eq ⟨bufSize - clippedSuffix.length, clippedSuffix.length⟩ clippedSuffix 0 w
    rw [Nat.sub_zero, Nat.add_zero, Nat.zero_add, List.take_length] at hcopy
    have hlen : (text.take (bufSize - clippedSuffix.length) ++ clippedSuffix).length = bufSize := by
      rw [List.length_append, List.length_take, clippedSuffix_length]
      unfold bufSize at h ⊢
      omega
    rw [if_pos (Nat.cast_lt.2 h), if_pos h, if_pos h, hlen, hbegin, run_bind hsuffix, strcpyS,
      show (CString.lit "... [clipped]").bytes = clippedSuffix from rfl, run_bind hcopy]
    rfl
  · rw [if_neg (fun hc => h (Nat.cast_lt.1 hc)), if_neg h, if_neg h, List.append_nil]
    rfl

/-- The stores of a call. -/
def textStores (text : List Byte) : List Store := place 0 (text.take bufSize) ++ clipStores text

/-- The end of the formatting, after the prefix and the rest have been written. -/
theorem clip_pieces (l rest : List Byte) : clip ((l.length : ℤ) + rest.length)
      ([] ++ place out.data (l.take out.count) ++
        place (out.data + l.length) (rest.take (out.count - l.length))) =
    (Except.ok ((clipped (l ++ rest)).length : ℤ), textStores (l ++ rest)) := by
  have hstores := place_piece out l rest 0 []
  rw [Nat.zero_add, Nat.add_zero, Nat.sub_zero] at hstores
  rw [hstores, ← Nat.cast_add, ← List.length_append, clip_text]
  rfl

/-- No assertion fails: the arguments have known types, the directives of a format match them, and the
prefix of a formatted line fits in the buffer. -/
def Call.WellFormed : Call → Prop
  | .log _ count args => ∀ i : ℕ, (i : ℤ) < count → (args i).Known
  | .logFmt call => (prefixText call.loc).length ≤ bufSize ∧
      ∃ d, directives call.fmt.bytes = some d ∧ (d : ℤ) = call.count ∧ ∀ i < d, (call.args i).Known

theorem exists_argsText_iff (args : ℕ → Any) (n i : ℕ) :
    (∃ text, argsText args n i = some text) ↔ ∀ j, i ≤ j → j < i + n → (args j).Known := by
  induction n generalizing i with
  | zero =>
    refine iff_of_true ⟨[], rfl⟩ ?_
    intro j hj hj'
    omega
  | succ n ih =>
    constructor
    · rintro ⟨text, h⟩ j hj hj'
      obtain ⟨l, hl, h⟩ := Option.bind_eq_some_iff.1 h
      obtain ⟨rest, hrest, -⟩ := Option.map_eq_some_iff.1 h
      rcases Nat.eq_or_lt_of_le hj with rfl | hlt
      · exact (Any.text_ne_none_iff _).1 (by rw [hl]; exact Option.some_ne_none _)
      · exact (ih (i + 1)).1 ⟨rest, hrest⟩ j hlt (by omega)
    · intro hknown
      obtain ⟨rest, hrest⟩ := (ih (i + 1)).2 fun j hj hj' => hknown j (by omega) (by omega)
      obtain ⟨l, hl⟩ := Option.ne_none_iff_exists'.1
        ((Any.text_ne_none_iff (args i)).2 (hknown i (le_refl i) (by omega)))
      exact ⟨l ++ rest, by rw [argsText, hl, Option.bind_some, hrest]; rfl⟩

/-- **The formatting of a well-formed call.** -/
theorem format_text {call : Call} (h : call.WellFormed) : ∃ text, call.text = some text ∧
    call.format [] = (Except.ok ((clipped text).length : ℤ), textStores text) := by
  cases call with
  | log loc count args =>
    obtain ⟨body, hbody⟩ := (exists_argsText_iff args count.toNat 0).2 fun j _ hj => h j (by omega)
    refine ⟨prefixText loc ++ body, by rw [Call.text, hbody]; rfl, ?_⟩
    rw [Call.format, logFormat, run_bind (writePrefixToBuffer_formats out loc []),
      run_bind (logArgs_text _ _ hbody _ _), Nat.cast_add, clip_pieces]
  | logFmt call =>
    obtain ⟨hshown, d, hd, hcount, hknown⟩ := h
    obtain ⟨body, hbody⟩ := (exists_render_iff call.count call.args call.fmt.bytes 0).2
      ⟨d, hd, by rwa [Nat.cast_zero, zero_add], fun i _ hi => hknown i (by omega)⟩
    refine ⟨prefixText call.loc ++ body, by rw [Call.text, hbody]; rfl, ?_⟩
    rw [Call.format, logFmtFormat, run_bind (writePrefixToBuffer_formats out call.loc []),
      run_bind (strSuffix_of_le hshown _), run_bind (anyFmt_render _ hbody _),
      if_neg (not_lt.2 (Int.natCast_nonneg _))]
    exact clip_pieces _ _

/-- The formatting of any other call fails. -/
theorem format_fails {call : Call} (h : ¬ call.WellFormed) :
    ∃ call' w, call.format [] = (Except.error call', w) := by
  cases call with
  | log loc count args =>
    have hnone : argsText args count.toNat 0 = none := by
      rw [← Option.not_isSome_iff_eq_none, Option.isSome_iff_exists, exists_argsText_iff]
      exact fun hknown => h fun i hi => hknown i (Nat.zero_le i) (by omega)
    obtain ⟨call', w, hw⟩ := logArgs_fails _ _ hnone (prefixText loc).length
      ([] ++ place out.data ((prefixText loc).take out.count))
    refine ⟨call', w, ?_⟩
    rw [Call.format, logFormat, run_bind (writePrefixToBuffer_formats out loc []), run_bind_error hw]
  | logFmt call =>
    rw [Call.format, logFmtFormat, run_bind (writePrefixToBuffer_formats out call.loc [])]
    by_cases hshown : (prefixText call.loc).length ≤ bufSize
    · rw [run_bind (strSuffix_of_le hshown _)]
      have hnone : render call.count call.args call.fmt.bytes 0 = none := by
        rw [← Option.not_isSome_iff_eq_none, Option.isSome_iff_exists, exists_render_iff]
        rintro ⟨d, hd, hcount, hknown⟩
        rw [Nat.cast_zero, zero_add] at hcount
        exact h ⟨hshown, d, hd, hcount, fun i hi => hknown i (Nat.zero_le i) (by omega)⟩
      obtain ⟨j, l, hw, -, -⟩ := anyFmt_fails _ hnone _
      rw [run_bind hw, if_pos (by omega)]
      split_ifs with hmany
      · exact ⟨_, _, rfl⟩
      · exact ⟨_, _, rfl⟩
    · have hlt : out.count < (prefixText call.loc).length := not_le.1 hshown
      obtain ⟨call', hcall⟩ := strSuffix_of_lt hlt _
      exact ⟨call', _, run_bind_error hcall⟩

/-! ### The buffer -/

theorem applyStores_append (l l' : List Store) (buffer : ℕ → Byte) :
    applyStores (l ++ l') buffer = applyStores l' (applyStores l buffer) := by
  induction l generalizing buffer with
  | nil => rfl
  | cons x l ih => rw [List.cons_append, applyStores, applyStores, ih]

theorem applyStores_place (k : ℕ) (l : List Byte) (buffer : ℕ → Byte) (i : ℕ) :
    applyStores (place k l) buffer i = if k ≤ i then l[i - k]?.getD (buffer i) else buffer i := by
  induction l generalizing k buffer with
  | nil => simp [place, applyStores]
  | cons b l ih =>
    rw [place, applyStores, ih]
    rcases lt_trichotomy i k with hlt | rfl | hgt
    · rw [if_neg (by omega), if_neg (by omega), Function.update_of_ne (by omega)]
    · simp
    · rw [if_pos (by omega), if_pos (by omega), Function.update_of_ne (by omega),
        show i - k = i - (k + 1) + 1 by omega, List.getElem?_cons_succ]

/-- **The buffer after the formatting** begins with what is to be sent, whatever was in it before. -/
theorem applyStores_textStores (text : List Byte) (buffer : ℕ → Byte) {i : ℕ}
    (hi : i < (clipped text).length) :
    (clipped text)[i]? = some (applyStores (textStores text) buffer i) := by
  have hsuffix := clippedSuffix_length
  rw [textStores, applyStores_append]
  unfold clipped at hi
  unfold clipped clipStores
  by_cases h : bufSize < text.length
  · have htake : (text.take (bufSize - clippedSuffix.length)).length = 187 := by
      rw [List.length_take]
      unfold bufSize at *
      omega
    rw [if_pos h, List.length_append, htake] at hi
    rw [if_pos h, if_pos h, applyStores_place, hsuffix, show bufSize - 13 = 187 from rfl]
    rw [hsuffix, show bufSize - 13 = 187 from rfl] at htake
    split_ifs with hk
    · rw [List.getElem?_append_right (by omega), htake, List.getElem?_eq_getElem (by omega)]
      rfl
    · rw [List.getElem?_append_left (by omega), applyStores_place, if_pos (Nat.zero_le i),
        List.getElem?_take_of_lt (by omega), Nat.sub_zero,
        List.getElem?_take_of_lt (show i < bufSize by unfold bufSize; omega),
        List.getElem?_eq_getElem (show i < text.length by unfold bufSize at h; omega)]
      rfl
  · rw [if_neg h] at hi
    rw [if_neg h, if_neg h, applyStores, applyStores_place, if_pos (Nat.zero_le i),
      List.take_of_length_le (not_lt.1 h), Nat.sub_zero, List.getElem?_eq_getElem hi]
    rfl

/-! ### Runs of a call -/

theorem send_eq (n i : ℕ) (s : State) : send n i s =
    Except.ok ((), { s with serial := s.serial ++ (List.range' i n).map s.buffer }) := by
  induction n generalizing i s with
  | zero =>
    rw [List.range'_zero, List.map_nil, List.append_nil]
    rfl
  | succ n ih =>
    have hcons : send (n + 1) i s = send n (i + 1) { s with serial := s.serial ++ [s.buffer i] } := rfl
    rw [hcons, ih, List.range'_succ, List.map_cons, List.append_assoc]
    rfl

theorem wp_logWith (again : FmtCall → Log Unit) {format : Fmt ℤ} {n : ℕ} {stores : List Store}
    (h : format [] = (Except.ok (n : ℤ), stores)) {s : State} (hs : s.loggingMutex = false) :
    wp (logWith again format) (fun _ s' => s' = ⟨false, applyStores stores s.buffer,
      s.serial ++ (List.range n).map (applyStores stores s.buffer) ++ [10#8]⟩) s := by
  have hsend := send_eq n 0 ⟨true, applyStores stores s.buffer, s.serial⟩
  simp only [logWith, logLocked, useInterrupts, lock, onBuffer, serialWrite, unlock, h, hs, wp_bind,
    wp_get, wp_ite, wp_modify, wp_pure, Bool.false_eq_true, if_false, Int.toNat_natCast]
  apply wp_of_run hsend
  rw [List.range_eq_range']

theorem lock_locked {s : State} (hs : s.loggingMutex = true) : lock s = Except.error .selfLock := by
  obtain ⟨m, buffer, serial⟩ := s
  cases hs
  rfl

/-- A call that is made while the mutex is locked. -/
theorem logWith_locked (again : FmtCall → Log Unit) (format : Fmt ℤ) {s : State}
    (hs : s.loggingMutex = true) : logWith again format s = Except.error .selfLock :=
  bind_eq_error (lock_locked hs)

theorem logWith_error {again : FmtCall → Log Unit} {format : Fmt ℤ} {call : FmtCall}
    {stores : List Store} (h : format [] = (Except.error call, stores)) {s : State}
    (hs : s.loggingMutex = false) (hagain : ∀ t : State, t.loggingMutex = true →
      again call t = Except.error .selfLock) : logWith again format s = Except.error .selfLock := by
  obtain ⟨m, buffer, serial⟩ := s
  cases hs
  have hon : onBuffer again format ⟨true, buffer, serial⟩ = Except.error .selfLock := by
    unfold onBuffer
    rw [h]
    show (do again call; throw (Stop.exit (← get)) : Log ℤ) ⟨true, applyStores stores buffer, serial⟩ = _
    exact bind_eq_error (hagain ⟨true, applyStores stores buffer, serial⟩ rfl)
  show logLocked again format ⟨true, buffer, serial⟩ = _
  exact bind_eq_error hon

/-- **A well-formed call** sends its line and unlocks the mutex. -/
theorem run_of_wellFormed {call : Call} (h : call.WellFormed) (depth : ℕ) {s : State}
    (hs : s.loggingMutex = false) : ∃ text buffer, call.text = some text ∧
      call.run depth s = Except.ok ((), ⟨false, buffer, s.serial ++ clipped text ++ [10#8]⟩) := by
  obtain ⟨text, htext, hformat⟩ := format_text h
  obtain ⟨⟨⟩, s', hrun, rfl⟩ := wp_logWith (extLogFmt depth) hformat hs
  have hline : (List.range (clipped text).length).map (applyStores (textStores text) s.buffer) =
      clipped text := by
    apply List.ext_getElem?
    intro i
    by_cases hi : i < (clipped text).length
    · rw [applyStores_textStores text s.buffer hi, List.getElem?_map, List.getElem?_range hi]
      rfl
    · rw [List.getElem?_eq_none (by simpa using hi), List.getElem?_eq_none (not_lt.1 hi)]
  rw [hline] at hrun
  exact ⟨text, _, htext, by rw [Call.run_eq, hrun]⟩

/-- **Any other call** locks the mutex a second time. -/
theorem run_of_not_wellFormed {call : Call} (h : ¬ call.WellFormed) (depth : ℕ) {s : State}
    (hs : s.loggingMutex = false) : call.run (depth + 1) s = Except.error .selfLock := by
  obtain ⟨call', stores, hformat⟩ := format_fails h
  rw [Call.run_eq]
  exact logWith_error hformat hs fun t ht => logWith_locked _ _ ht

/-- The call sends one line and unlocks the mutex, or it sends a diagnostic and exits; it never waits
for itself. -/
def SendsOrExits (m : Log Unit) (s : State) : Prop :=
  (∃ line s', m s = Except.ok ((), s') ∧ s'.serial = s.serial ++ line ++ [10#8] ∧
    s'.loggingMutex = false) ∨
  ∃ diagnostic s', m s = Except.error (.exit s') ∧ s'.serial = s.serial ++ diagnostic ++ [10#8]

/-- **The logger does not wait for itself** exactly on well-formed calls. -/
theorem logger_never_self_locks_iff (call : Call) (depth : ℕ) {s : State} (hs : s.loggingMutex = false) :
    SendsOrExits (call.run (depth + 1)) s ↔ call.WellFormed := by
  constructor
  · intro h
    by_contra hwell
    have hrun := run_of_not_wellFormed hwell depth hs
    rcases h with ⟨line, s', h, -, -⟩ | ⟨diagnostic, s', h, -⟩
    · rw [hrun] at h
      cases h
    · rw [hrun] at h
      cases h
  · intro h
    obtain ⟨text, buffer, -, hrun⟩ := run_of_wellFormed h (depth + 1) hs
    exact Or.inl ⟨clipped text, _, hrun, rfl, rfl⟩

/-- The logger when nothing has been logged. -/
def initialState : State := ⟨false, fun _ => 0#8, []⟩

/-- `log_fmt("%f cores", 4)`, on a line of `kern/main.c`. -/
def logCores : Call :=
  .logFmt ⟨⟨some (.lit "kern/main.c"), 20⟩, .lit "%f cores", 1, makeAnyArray [.i64 4]⟩

theorem logCores_wellFormed : logCores.WellFormed := by
  refine ⟨by decide +kernel, 1, by decide +kernel, rfl, ?_⟩
  intro i hi tag
  obtain rfl : i = 0 := by omega
  exact TypeId.noConfusion

theorem logger_never_self_locks_cores : initialState.loggingMutex = false ∧
    SendsOrExits (logCores.run 1) initialState :=
  ⟨rfl, (logger_never_self_locks_iff logCores 0 rfl).2 logCores_wellFormed⟩

/-- `log_fmt("%d cores", 4)`. -/
def logCoresMistyped : Call :=
  .logFmt ⟨⟨some (.lit "kern/main.c"), 20⟩, .lit "%d cores", 1, makeAnyArray [.i64 4]⟩

theorem logCoresMistyped_run : logCoresMistyped.run 1 initialState = Except.error .selfLock := by
  apply run_of_not_wellFormed _ 0 rfl
  rintro ⟨-, d, hd, -⟩
  have hnone : directives (CString.lit "%d cores").bytes = none := by decide +kernel
  cases hnone.symm.trans hd

/-- The diagnostic for a directive that does not exist is never sent. -/
theorem logger_self_locks : ¬ SendsOrExits (logCoresMistyped.run 1) initialState := by
  rintro (⟨line, s', h, -, -⟩ | ⟨diagnostic, s', h, -⟩)
  · rw [logCoresMistyped_run] at h
    cases h
  · rw [logCoresMistyped_run] at h
    cases h

end Dumboss.Logger
