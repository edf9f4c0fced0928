import Dumboss.Logger.Model

/-!
# The reference rendering of a format

What `any__fmt` (`lib/basics.h`) is for: it prints a text into a buffer that may be too short for it.

* `decimal`, `signedDecimal`, `Any.shown`: the text of a value, without the conversion buffer; it is what
  `any__fmt_any` writes (`Any.text_eq_shown`);
* `shown`: the text of a format with its arguments, from its pieces; `Matches`: the arguments are those
  that the format asks for;
* `anyFmtMem`: `any__fmt` with the format in memory, where a read behind the end of that memory shows;
* `Prints`: the effect of the stores on the buffer; `anyFmt_bounded_printer`.
-/

namespace Dumboss.Logger

/-! ### Values -/

/-- A number to base 10. -/
def decimal (n : ℕ) : List Byte := (Nat.toDigits 10 n).map fun c => BitVec.ofNat 8 c.toNat

/-- A number to base 10, with its sign. -/
def signedDecimal (i : ℤ) : List Byte :=
  if i < 0 then 45#8 :: decimal i.natAbs else decimal i.natAbs

/-- The text of a value. -/
def Any.shown (value : Any) : Option (List Byte) :=
  match value.type with
  | .bool => some (if value.boolValue then CString.lit "true" else CString.lit "false").bytes
  | .u8 | .u16 | .u32 | .u64 => some (decimal value.u64Value.toNat)
  | .i8 | .i16 | .i32 | .i64 => some (signedDecimal value.u64Value.toInt)
  | .char => some [value.charValue]
  | .charPtr => some (value.ptr.elim [] CString.bytes)
  | .other _ => none

theorem decimal_of_lt {n : ℕ} (h : n < 10) : decimal n = [BitVec.ofNat 8 (48 + n)] := by
  rw [decimal, Nat.toDigits_of_lt_base h, List.map_singleton, Nat.toNat_digitChar_of_lt_ten h]

theorem decimal_of_le {n : ℕ} (h : 10 ≤ n) :
    decimal n = decimal (n / 10) ++ [BitVec.ofNat 8 (48 + n % 10)] := by
  have hlt : n % 10 < 10 := Nat.mod_lt _ (by decide)
  rw [decimal, Nat.toDigits_of_base_le (by decide) h, List.map_append, List.map_singleton,
    Nat.toNat_digitChar_of_lt_ten hlt]
  rfl

/-- The digits in the conversion buffer, if there is room for all of them. -/
theorem ntoaDigits_reverse {m room n : ℕ} (h : n < 10 ^ m) (hm : 0 < m) (hroom : m ≤ room) :
    (ntoaDigits room n).reverse = decimal n ∧ (ntoaDigits room n).length ≤ m := by
  induction m generalizing room n with
  | zero => omega
  | succ m ih =>
    obtain ⟨room, rfl⟩ : ∃ r, room = r + 1 := ⟨room - 1, by omega⟩
    rw [ntoaDigits]
    split_ifs with hlast
    · have hlt : n < 10 := by omega
      rw [decimal_of_lt hlt, Nat.mod_eq_of_lt hlt]
      exact ⟨rfl, by rw [List.length_singleton]; omega⟩
    · have hle : 10 ≤ n := by omega
      rw [Nat.pow_succ] at h
      have hpos : 0 < m := by
        rcases Nat.eq_zero_or_pos m with rfl | hpos
        · omega
        · exact hpos
      have hdigits : n / 10 < 10 ^ m := by omega
      have hrest : m ≤ room := by omega
      obtain ⟨hrev, hlen⟩ := ih hdigits hpos hrest
      rw [List.reverse_cons, hrev, ← decimal_of_le hle, List.length_cons]
      exact ⟨rfl, by omega⟩

/-- A 64-bit number has at most 20 digits, and the conversion buffer 32 bytes. -/
theorem ntoaBuffer_reverse (value : U64) (negative : Bool) : (ntoaBuffer value negative).reverse =
    if negative then 45#8 :: decimal value.toNat else decimal value.toNat := by
  have hlt := value.isLt
  have hdigits : value.toNat < 10 ^ 20 := by omega
  have hroom : 20 ≤ 32 := by decide
  obtain ⟨hrev, hlen⟩ := ntoaDigits_reverse hdigits (by decide) hroom
  unfold ntoaBuffer
  cases negative with
  | true =>
    rw [if_pos ⟨by omega, rfl⟩, if_pos rfl, List.reverse_append, hrev]
    rfl
  | false => rw [if_neg (fun h => by cases h.2), if_neg (by decide), hrev]

/-- The negation of `fmt_i64`, also of `-2 ^ 63`. -/
theorem signedDecimal_toInt (value : U64) :
    (ntoaBuffer (if value.toInt < 0 then -value else value) (value.toInt < 0)).reverse =
      signedDecimal value.toInt := by
  rw [ntoaBuffer_reverse, signedDecimal]
  have hlt := value.isLt
  by_cases hneg : value.toInt < 0
  · have hnat : (-value).toNat = value.toInt.natAbs := by
      rw [BitVec.toInt_eq_toNat_cond] at hneg ⊢
      rw [BitVec.toNat_neg]
      split_ifs at hneg ⊢ with hpos
      · omega
      · omega
    rw [if_pos hneg, if_pos hneg, hnat, if_pos (decide_eq_true hneg)]
  · have hnat : value.toNat = value.toInt.natAbs := by
      rw [BitVec.toInt_eq_toNat_cond] at hneg ⊢
      split_ifs at hneg ⊢ with hpos
      · omega
      · omega
    rw [if_neg hneg, if_neg hneg, hnat, if_neg (by simpa using hneg)]

/-- **`any__fmt_any` writes the text of the value.** -/
theorem Any.text_eq_shown (value : Any) : value.text = value.shown := by
  unfold Any.text Any.shown
  cases value.type with
  | u8 | u16 | u32 | u64 => exact congrArg some (ntoaBuffer_reverse _ _)
  | i8 | i16 | i32 | i64 => exact congrArg some (signedDecimal_toInt _)
  | _ => rfl

/-! ### Formats -/

/-- The text of some pieces with the arguments from number `k` on. -/
def shown (args : ℕ → Any) : List Piece → ℕ → List Byte
  | [], _ => []
  | .char c :: l, k => c :: shown args l k
  | .arg :: l, k => (args k).shown.getD [] ++ shown args l (k + 1)

/-- Every `%` starts a directive, and the arguments are those that the directives ask for. -/
structure Matches (fmt : CString) (count : ℤ) (args : ℕ → Any) : Prop where
  wellFormed : (pieces fmt.bytes).2 = true
  count_eq : ((pieces fmt.bytes).1.count .arg : ℤ) = count
  known : ∀ i < (pieces fmt.bytes).1.count .arg, (args i).Known

/-- The reference rendering is what `render` computes. -/
theorem render_eq_shown (count : ℤ) (args : ℕ → Any) (fmt : List Byte) (k : ℕ) : ∀ {text},
    render count args fmt k = some text → text = shown args (pieces fmt).1 k := by
  fun_induction render count args fmt k with
  | case1 k hk => exact fun h => by cases h
  | case2 k hk =>
    intro text h
    cases h
    rfl
  | case3 c fmt k hc ih =>
    intro text h
    obtain ⟨rest, hrest, rfl⟩ := Option.map_eq_some_iff.1 h
    unfold pieces
    rw [if_pos hc, ih hrest]
    rfl
  | case4 c k hc => exact fun h => by cases h
  | case5 c k hc fmt ih =>
    intro text h
    obtain ⟨rest, hrest, rfl⟩ := Option.map_eq_some_iff.1 h
    rw [pieces, if_neg hc, ih hrest]
    rfl
  | case6 c k hc d fmt hd hf => exact fun h => by cases h
  | case7 c k hc d fmt hd hf hk => exact fun h => by cases h
  | case8 c k hc d fmt hd hf hk ih =>
    intro text h
    obtain ⟨l, hl, h⟩ := Option.bind_eq_some_iff.1 h
    obtain ⟨rest, hrest, rfl⟩ := Option.map_eq_some_iff.1 h
    rw [Any.text_eq_shown] at hl
    rw [pieces, if_neg hc, ih hrest]
    simp only [if_neg hd, if_neg hf]
    rw [shown, hl, Option.getD_some]

theorem directives_eq (fmt : List Byte) :
    directives fmt = if (pieces fmt).2 then some ((pieces fmt).1.count .arg) else none := by
  fun_induction pieces fmt with
  | case1 => rfl
  | case2 c fmt hc ih =>
    unfold directives
    rw [if_pos hc, ih, List.count_cons_of_ne (by simp)]
  | case3 c hc => rw [directives, if_neg hc]; rfl
  | case4 c hc fmt ih =>
    rw [directives, if_neg hc, List.count_cons_of_ne (by simp), ← ih]
    rfl
  | case5 c hc d fmt hd hf =>
    rw [directives, if_neg hc]
    simp only [if_neg hd, if_pos hf]
    rfl
  | case6 c hc d fmt hd hf ih =>
    rw [directives, if_neg hc]
    simp only [if_neg hd, if_neg hf]
    rw [ih, List.count_cons_self]
    cases (pieces fmt).2 with
    | true => rfl
    | false => rfl

theorem matches_iff (fmt : CString) (count : ℤ) (args : ℕ → Any) : Matches fmt count args ↔
    ∃ d, directives fmt.bytes = some d ∧ (d : ℤ) = count ∧ ∀ i < d, (args i).Known := by
  rw [directives_eq]
  constructor
  · rintro ⟨hwell, hcount, hknown⟩
    exact ⟨_, if_pos hwell, hcount, hknown⟩
  · rintro ⟨d, hd, hcount, hknown⟩
    cases hwell : (pieces fmt.bytes).2 with
    | false =>
      rw [hwell] at hd
      cases hd
    | true =>
      rw [hwell] at hd
      cases hd
      exact ⟨hwell, hcount, hknown⟩

theorem matches_iff_render (fmt : CString) (count : ℤ) (args : ℕ → Any) : Matches fmt count args ↔
    render count args fmt.bytes 0 = some (shown args (pieces fmt.bytes).1 0) := by
  have hiff := exists_render_iff count args fmt.bytes 0
  simp only [Nat.cast_zero, zero_add, Nat.zero_le, forall_const] at hiff
  rw [matches_iff, ← hiff]
  constructor
  · rintro ⟨text, htext⟩
    rw [htext, render_eq_shown count args fmt.bytes 0 htext]
  · exact fun h => ⟨_, h⟩

/-! ### The format in memory -/

/-- The loop of `any__fmt` over the memory from `fmt` on; `none` if it reads behind that memory. -/
def anyFmtMemLoop (out : Str) (count : ℤ) (args : ℕ → Any) : List Byte → ℕ → ℕ → Fmt (Option ℤ)
  | [], _, _ => return none
  | c :: mem, formatCount, written =>
    if c = 0#8 then
      if (formatCount : ℤ) ≠ count then return some (-formatCount - 1) else return some written
    else if c ≠ 37#8 then do
      putChar out written c
      anyFmtMemLoop out count args mem formatCount (written + 1)
    else
      match mem with
      | [] => return none
      | d :: mem =>
        if d = 37#8 then do
          putChar out written 37#8
          anyFmtMemLoop out count args mem formatCount (written + 1)
        else if d ≠ 102#8 then return some (-formatCount - 1)
        else if count ≤ formatCount then return some (-formatCount - 1)
        else do
          let fmtTry ← anyFmtAny (← strSuffix out (min written out.count)) (args formatCount)
          if fmtTry < 0 then return some (-formatCount - 1)
          anyFmtMemLoop out count args mem (formatCount + 1) (written + fmtTry.toNat)

/-- `any__fmt`, on the memory from `fmt` on. -/
def anyFmtMem (out : Str) (mem : List Byte) (count : ℤ) (args : ℕ → Any) : Fmt (Option ℤ) :=
  anyFmtMemLoop out count args mem 0 0

/-- The loop reads a format up to its NUL and no further. -/
theorem anyFmtMemLoop_eq (out : Str) (count : ℤ) (args : ℕ → Any) (fmt rest : List Byte)
    (formatCount written : ℕ) (hfmt : 0#8 ∉ fmt) :
    anyFmtMemLoop out count args (fmt ++ 0#8 :: rest) formatCount written =
      some <$> anyFmtLoop out count args fmt formatCount written := by
  have hchar {c : Byte} {l : List Byte} (h : 0#8 ∉ c :: l) : c ≠ 0#8 ∧ 0#8 ∉ l := by
    rw [List.mem_cons, not_or] at h
    exact ⟨fun hc => h.1 hc.symm, h.2⟩
  fun_induction anyFmtLoop out count args fmt formatCount written with
  | case1 k written hk =>
    unfold anyFmtMemLoop
    simp only [List.nil_append, if_true, if_pos hk]
    rw [map_pure]
  | case2 k written hk =>
    unfold anyFmtMemLoop
    simp only [List.nil_append, if_true, if_neg hk]
    rw [map_pure]
  | case3 c fmt k written hc ih =>
    obtain ⟨hc0, hfmt⟩ := hchar hfmt
    rw [List.cons_append]
    unfold anyFmtMemLoop
    rw [if_neg hc0, if_pos hc, map_bind, ih hfmt]
  | case4 c k written hc =>
    obtain ⟨hc0, -⟩ := hchar hfmt
    rw [List.cons_append, List.nil_append, anyFmtMemLoop, if_neg hc0, if_neg hc]
    rfl
  | case5 c k written hc fmt ih =>
    obtain ⟨hc0, hfmt⟩ := hchar hfmt
    obtain ⟨-, hfmt⟩ := hchar hfmt
    rw [List.cons_append, List.cons_append, anyFmtMemLoop, if_neg hc0, if_neg hc]
    simp only [if_true]
    rw [map_bind, ih hfmt]
  | case6 c k written hc d fmt hd hf =>
    obtain ⟨hc0, -⟩ := hchar hfmt
    rw [List.cons_append, List.cons_append, anyFmtMemLoop, if_neg hc0, if_neg hc]
    simp only [if_neg hd, if_pos hf]
    rw [map_pure]
  | case7 c k written hc d fmt hd hf hk =>
    obtain ⟨hc0, -⟩ := hchar hfmt
    rw [List.cons_append, List.cons_append, anyFmtMemLoop, if_neg hc0, if_neg hc]
    simp only [if_neg hd, if_neg hf, if_pos hk]
    rw [map_pure]
  | case8 c k written hc d fmt hd hf hk ih =>
    obtain ⟨hc0, hfmt⟩ := hchar hfmt
    obtain ⟨-, hfmt⟩ := hchar hfmt
    rw [List.cons_append, List.cons_append, anyFmtMemLoop, if_neg hc0, if_neg hc]
    simp only [if_neg hd, if_neg hf, if_neg hk, map_bind]
    congr 1
    funext suffix
    congr 1
    funext fmtTry
    split_ifs with hneg
    · rw [map_pure]
    · exact ih fmtTry hfmt

/-! ### The printer -/

/-- The stores put a text at the beginning of `out`, as much of it as there is room for, and change
nothing else. -/
structure Prints (stores : List Store) (out : Str) (text : List Byte) : Prop where
  written : ∀ x ∈ stores, out.data ≤ x.1 ∧ x.1 < out.data + min text.length out.count
  buffer : ∀ buffer i, i < min text.length out.count →
    text[i]? = some (applyStores stores buffer (out.data + i))

theorem prints_place (out : Str) (text : List Byte) :
    Prints (place out.data (text.take out.count)) out text where
  written x hx := by
    have hmem := mem_place hx
    rw [List.length_take] at hmem
    omega
  buffer buffer i hi := by
    have hlt : i < text.length := by omega
    rw [applyStores_place, if_pos (Nat.le_add_right _ _), Nat.add_sub_cancel_left,
      List.getElem?_take_of_lt (by omega), List.getElem?_eq_getElem hlt]
    rfl

/-- **`any__fmt` is a bounded printer.**  If the arguments are those that the format asks for, it prints
the reference rendering and returns its length; if not, it returns `-(j + 1)`, where `j` arguments were
rendered before the first failure, and writes into the buffer only.  In both cases it does not read
behind the NUL of the format, whatever stands there. -/
theorem anyFmt_bounded_printer (out : Str) (fmt : CString) (rest : List Byte) (count : ℤ)
    (args : ℕ → Any) :
    (Matches fmt count args → ∃ stores, anyFmtMem out (fmt.bytes ++ 0#8 :: rest) count args [] =
        (Except.ok (some ((shown args (pieces fmt.bytes).1 0).length : ℤ)), stores) ∧
      Prints stores out (shown args (pieces fmt.bytes).1 0)) ∧
    (¬ Matches fmt count args → ∃ (j : ℕ) (stores : List Store),
      anyFmtMem out (fmt.bytes ++ 0#8 :: rest) count args [] =
        (Except.ok (some (-((j : ℤ) + 1))), stores) ∧
      FailsAt count args (pieces fmt.bytes).1 0 j ∧ ∀ x ∈ stores, out.Contains x.1) := by
  have hmem : anyFmtMem out (fmt.bytes ++ 0#8 :: rest) count args = some <$> anyFmt out fmt count args :=
    anyFmtMemLoop_eq out count args fmt.bytes rest 0 0 fmt.noNul
  rw [hmem]
  constructor
  · intro h
    have hrun := anyFmt_render out ((matches_iff_render fmt count args).1 h) []
    exact ⟨_, run_map hrun, prints_place out _⟩
  · intro h
    have hnone : render count args fmt.bytes 0 = none := by
      rw [matches_iff_render] at h
      cases hr : render count args fmt.bytes 0 with
      | none => rfl
      | some text => exact absurd (render_eq_shown count args fmt.bytes 0 hr ▸ hr) h
    obtain ⟨j, l, hrun, hj, hl⟩ := anyFmt_fails out hnone []
    refine ⟨j, l, ?_, hj, hl⟩
    rw [run_map hrun, List.nil_append, neg_add, sub_eq_add_neg]

/-! ### Log lines -/

/-- `[file:line]: `. -/
def prefixShown (loc : Sloc) : List Byte :=
  91#8 :: (loc.file.elim [] CString.bytes ++ 58#8 :: (decimal loc.line.toNat ++ [93#8, 58#8, 32#8]))

theorem prefixText_eq_shown (loc : Sloc) : prefixText loc = prefixShown loc := by
  have hlt := loc.line.isLt
  rw [prefixText, prefixShown, ntoaBuffer_reverse, if_neg (by decide), BitVec.toNat_setWidth,
    Nat.mod_eq_of_lt (by omega)]

/-- What the serial port gets of a text: all of it, or the first 187 bytes and a mark. -/
def shownLine (text : List Byte) : List Byte :=
  if text.length ≤ 200 then text else text.take 187 ++ (CString.lit "... [clipped]").bytes

theorem clipped_eq_shownLine (text : List Byte) : clipped text = shownLine text := by
  unfold clipped shownLine
  by_cases h : text.length ≤ 200
  · rw [if_neg (by unfold bufSize; omega), if_pos h]
  · rw [if_pos (by unfold bufSize; omega), if_neg h, clippedSuffix_length]
    rfl

/-- The format `%f%f...`. -/
def copies (n : ℕ) : CString where
  bytes := (List.replicate n [37#8, 102#8]).flatten
  noNul h := by
    obtain ⟨l, hl, h0⟩ := List.mem_flatten.1 h
    rw [(List.mem_replicate.1 hl).2] at h0
    revert h0
    decide

/-- The loop of `ext__log` and that of `any__fmt` render the same text. -/
theorem render_copies (args : ℕ → Any) (n k : ℕ) :
    render ((k + n : ℕ) : ℤ) args (copies n).bytes k = argsText args n k := by
  induction n generalizing k with
  | zero => simp [copies, render, argsText]
  | succ n ih =>
    have hcons : (copies (n + 1)).bytes = 37#8 :: 102#8 :: (copies n).bytes := rfl
    have hstep := ih (k + 1)
    rw [show k + 1 + n = k + (n + 1) by omega] at hstep
    rw [hcons, render, argsText, ← hstep, if_neg (not_not.2 rfl)]
    simp only [show (102#8 : Byte) ≠ 37#8 by decide, if_false, ne_eq, not_true_eq_false,
      show ¬ ((k + (n + 1) : ℕ) : ℤ) ≤ k by omega]

theorem directives_copies (n : ℕ) : directives (copies n).bytes = some n := by
  induction n with
  | zero => rfl
  | succ n ih =>
    have hcons : (copies (n + 1)).bytes = 37#8 :: 102#8 :: (copies n).bytes := rfl
    rw [hcons, directives, if_neg (not_not.2 rfl)]
    simp only [show (102#8 : Byte) ≠ 37#8 by decide, if_false, ne_eq, not_true_eq_false, ih,
      Option.map_some]

/-- **Log lines are exact, and the two functions agree.** -/
theorem log_lines_exact (loc : Sloc) (fmt : CString) (n : ℕ) (args : ℕ → Any) (depth : ℕ) (s : State)
    (hs : s.loggingMutex = false) (hshown : (prefixShown loc).length ≤ 200)
    (hfmt : Matches fmt n args) :
    (∃ s', extLogFmt (depth + 1) ⟨loc, fmt, n, args⟩ s = Except.ok ((), s') ∧ s'.serial =
      s.serial ++ shownLine (prefixShown loc ++ shown args (pieces fmt.bytes).1 0) ++ [10#8]) ∧
    ∃ s₁ s₂, extLog depth loc n args s = Except.ok ((), s₁) ∧
      extLogFmt (depth + 1) ⟨loc, copies n, n, args⟩ s = Except.ok ((), s₂) ∧
      s₁.serial = s₂.serial := by
  have hsize : (prefixText loc).length ≤ bufSize := by rwa [prefixText_eq_shown]
  obtain ⟨d, hd, hcount, hknown⟩ := (matches_iff fmt n args).1 hfmt
  obtain rfl : d = n := by exact_mod_cast hcount
  constructor
  · have hrender := (matches_iff_render fmt d args).1 hfmt
    have hwf : (Call.logFmt ⟨loc, fmt, d, args⟩).WellFormed := ⟨hsize, d, hd, rfl, hknown⟩
    obtain ⟨text, buffer, htext, hrun⟩ := run_of_wellFormed hwf depth hs
    rw [Call.text, hrender, prefixText_eq_shown] at htext
    cases htext
    rw [clipped_eq_shownLine] at hrun
    exact ⟨_, hrun, rfl⟩
  · have hwf₁ : (Call.log loc d args).WellFormed := fun i hi => hknown i (by omega)
    have hwf₂ : (Call.logFmt ⟨loc, copies d, d, args⟩).WellFormed :=
      ⟨hsize, d, directives_copies d, rfl, hknown⟩
    obtain ⟨text₁, buffer₁, htext₁, hrun₁⟩ := run_of_wellFormed hwf₁ depth hs
    obtain ⟨text₂, buffer₂, htext₂, hrun₂⟩ := run_of_wellFormed hwf₂ depth hs
    have hrender := render_copies args d 0
    rw [Nat.zero_add] at hrender
    have hsame : text₁ = text₂ := by
      rw [Call.text, Int.toNat_natCast] at htext₁
      rw [Call.text, hrender, htext₁] at htext₂
      exact Option.some.inj htext₂
    exact ⟨_, _, hrun₁, hrun₂, by rw [hsame]⟩

theorem matches_cores : Matches (.lit "%f cores") 1 (makeAnyArray [.i64 4]) where
  wellFormed := by decide +kernel
  count_eq := by decide +kernel
  known i hi tag := by
    have hcount : (pieces (CString.lit "%f cores").bytes).1.count .arg = 1 := by decide +kernel
    obtain rfl : i = 0 := by omega
    exact TypeId.noConfusion

theorem log_lines_exact_cores : ∃ s₁ s₂,
    extLog 0 ⟨some (.lit "kern/main.c"), 20⟩ 1 (makeAnyArray [.i64 4]) initialState =
      Except.ok ((), s₁) ∧
    extLogFmt 1 ⟨⟨some (.lit "kern/main.c"), 20⟩, copies 1, 1, makeAnyArray [.i64 4]⟩ initialState =
      Except.ok ((), s₂) ∧ s₁.serial = s₂.serial :=
  (log_lines_exact ⟨some (.lit "kern/main.c"), 20⟩ (.lit "%f cores") 1 (makeAnyArray [.i64 4]) 0
    initialState rfl (by decide +kernel) matches_cores).2

end Dumboss.Logger
