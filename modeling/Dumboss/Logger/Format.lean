import Dumboss.Machine

/-!
# Strings and formatting (`lib/basics.h`)

The formatter writes to a part of a buffer and never reads it, so a formatting function is a program
over the list of the stores it has made; a store is an index into the buffer and a byte.  A function that
fails an assertion calls `ext__log_fmt` and exits; here it stops with the arguments of that call.

* `CString`, `Any`, `Sloc`, `FmtCall`, `Str`: the data;
* `strSuffix`, `strcpyS`, `fmtU64`, `fmtI64`, `anyFmtAny`, `anyFmt`: the functions;
* `Any.text`, `render`: the text that they are to write;
* `Formats`: a function returns the length of a text and writes as much of it as there is room for;
  `anyFmt_render`, and `anyFmt_fails` for a format without a text;
* `directives`: the number of `%f` in a format; `exists_render_iff` says when there is a text.
-/

namespace Dumboss.Logger

/-! ### Data -/

/-- A `char`. -/
abbrev Byte := BitVec 8

/-- A NUL-terminated string, without its NUL. -/
structure CString where
  bytes : List Byte
  noNul : 0#8 ∉ bytes

/-- The C string at the beginning of some bytes. -/
def CString.ofBytes (l : List Byte) : CString where
  bytes := l.takeWhile (· ≠ 0#8)
  noNul h := by simpa using List.mem_takeWhile_imp h

/-- A string literal. -/
def CString.lit (s : String) : CString := .ofBytes (s.toList.map fun c => BitVec.ofNat 8 c.toNat)

/-- `src + n`. -/
def CString.drop (s : CString) (n : ℕ) : CString where
  bytes := s.bytes.drop n
  noNul h := s.noNul (List.mem_of_mem_drop h)

/-- `type_id`; the enumeration is packed into a byte, which can have other values. -/
inductive TypeId
  | bool
  | u8
  | i8
  | u16
  | i16
  | u32
  | i32
  | u64
  | i64
  | char
  | charPtr
  | other (tag : Byte)
  deriving DecidableEq

/-- `any`: the type, and the union, read as an integer and as a pointer to characters (`none` is
`NULL`). -/
structure Any where
  type : TypeId
  u64Value : U64
  ptr : Option CString

namespace Any

def charValue (value : Any) : Byte := value.u64Value.setWidth 8

def boolValue (value : Any) : Bool := value.charValue ≠ 0#8

/-- `any__u64`. -/
def u64 (value : U64) : Any := ⟨.u64, value, none⟩

/-- `any__i64`. -/
def i64 (value : ℤ) : Any := ⟨.i64, BitVec.ofInt 64 value, none⟩

/-- `any__char_ptr`. -/
def charPtr (value : Option CString) : Any := ⟨.charPtr, 0#64, value⟩

/-- `any__fmt_any` knows the type. -/
def Known (value : Any) : Prop := ∀ tag, value.type ≠ .other tag

end Any

/-- `make_any_array`. -/
def makeAnyArray (args : List Any) (i : ℕ) : Any := args.getD i (.u64 0#64)

/-- `sloc`. -/
structure Sloc where
  file : Option CString
  line : BitVec 32

/-- The arguments of `ext__log_fmt`; `args` is an array, of which `count` elements are looked at. -/
structure FmtCall where
  loc : Sloc
  fmt : CString
  count : ℤ
  args : ℕ → Any

/-- `String`: a part of the buffer. -/
structure Str where
  data : ℕ
  count : ℕ

/-- A store into the buffer. -/
abbrev Store := ℕ × Byte

/-- A formatting function, over the stores it has made. -/
abbrev Fmt (α : Type) := ExceptT FmtCall (StateM (List Store)) α

/-! ### Functions -/

def store (i : ℕ) (b : Byte) : Fmt Unit := modify (· ++ [(i, b)])

/-- A call of `ext__log_fmt`, and then `exit`. -/
def logAndExit {α : Type} (loc : Sloc) (fmt : String) (args : List Any) : Fmt α :=
  throw ⟨loc, .lit fmt, args.length, makeAnyArray args⟩

/-- `assert`, at a place in the source. -/
def assert (expression : Prop) [Decidable expression] (text file : String) (line : BitVec 32) :
    Fmt Unit :=
  if expression then return
  else logAndExit ⟨some (.lit file), line⟩ "failed assertion: `%f`" [.charPtr (some (.lit text))]

/-- `Str__suffix`. -/
def strSuffix (str : Str) (begin' : ℤ) : Fmt Str := do
  assert (0 ≤ begin') "0 <= begin" "./lib/basics.h" 150
  assert (begin' ≤ str.count) "begin <= str.count" "./lib/basics.h" 151
  return ⟨str.data + begin'.toNat, str.count - begin'.toNat⟩

/-- `strlen`. -/
def strlen : Option CString → ℕ
  | none => 0
  | some str => str.bytes.length

/-- The loop of `strcpy_s`. -/
def strcpyLoop (dest : Str) : List Byte → ℕ → Fmt ℕ
  | [], written => return written
  | b :: src, written => do
    if written < dest.count then
      store (dest.data + written) b
      strcpyLoop dest src (written + 1)
    else return written

/-- `strcpy_s`. -/
def strcpyS (dest : Str) : Option CString → Fmt ℕ
  | none => return 0
  | some src => strcpyLoop dest src.bytes 0

/-- `_out_buffer`. -/
def outBuffer (character : Byte) (out : Str) (idx : ℕ) : Fmt Unit := do
  if idx < out.count then store (out.data + idx) character

/-- The loop of `_ntoa_long`: the digits to base 10, the last one first, as far as there is room. -/
def ntoaDigits : ℕ → ℕ → List Byte
  | 0, _ => []
  | room + 1, value =>
    BitVec.ofNat 8 (48 + value % 10) :: if value / 10 = 0 then [] else ntoaDigits room (value / 10)

/-- The conversion buffer of `_ntoa_long` after `_ntoa_format` has put the sign.  It has
`PRINTF_NTOA_BUFFER_SIZE` bytes; the callers pass no precision, no width and no flags. -/
def ntoaBuffer (value : U64) (negative : Bool) : List Byte :=
  let buf := ntoaDigits 32 value.toNat
  if buf.length < 32 ∧ negative = true then buf ++ [45#8] else buf

/-- The loop of `_out_rev`, over the characters in the order in which they are put out. -/
def outRev (out : Str) : List Byte → ℕ → Fmt ℕ
  | [], idx => return idx
  | b :: rest, idx => do
    outBuffer b out idx
    outRev out rest (idx + 1)

/-- `_ntoa_long`. -/
def ntoaLong (out : Str) (value : U64) (negative : Bool) : Fmt ℕ :=
  outRev out (ntoaBuffer value negative).reverse 0

/-- `fmt_u64`. -/
def fmtU64 (out : Str) (value : U64) : Fmt ℕ := ntoaLong out value false

/-- `fmt_i64`. -/
def fmtI64 (out : Str) (value : U64) : Fmt ℕ :=
  ntoaLong out (if value.toInt < 0 then -value else value) (value.toInt < 0)

/-- What `any__fmt_any` does with the two kinds of strings. -/
def fmtString (out : Str) (src : CString) : Fmt ℤ := do
  let written ← strcpyS out (some src)
  return written + strlen (some (src.drop written))

/-- `any__fmt_any`. -/
def anyFmtAny (out : Str) (value : Any) : Fmt ℤ :=
  match value.type with
  | .bool => fmtString out (if value.boolValue then .lit "true" else .lit "false")
  | .u8 | .u16 | .u32 | .u64 => Nat.cast <$> fmtU64 out value.u64Value
  | .i8 | .i16 | .i32 | .i64 => Nat.cast <$> fmtI64 out value.u64Value
  | .char => do
    if 1 ≤ out.count then store out.data value.charValue
    return 1
  | .charPtr =>
    match value.ptr with
    | none => return 0
    | some src => fmtString out src
  | .other _ => return -1

/-- An ordinary character of a format. -/
def putChar (out : Str) (written : ℕ) (c : Byte) : Fmt Unit := do
  if written < out.count then store (out.data + written) c

/-- The loop of `any__fmt`, over the rest of the format. -/
def anyFmtLoop (out : Str) (count : ℤ) (args : ℕ → Any) : List Byte → ℕ → ℕ → Fmt ℤ
  | [], formatCount, written =>
    if (formatCount : ℤ) ≠ count then return -formatCount - 1 else return written
  | c :: fmt, formatCount, written =>
    if c ≠ 37#8 then do
      putChar out written c
      anyFmtLoop out count args fmt formatCount (written + 1)
    else
      match fmt with
      | [] => return -formatCount - 1
      | d :: fmt =>
        if d = 37#8 then do
          putChar out written 37#8
          anyFmtLoop out count args fmt formatCount (written + 1)
        else if d ≠ 102#8 then return -formatCount - 1
        else if count ≤ formatCount then return -formatCount - 1
        else do
          let fmtTry ← anyFmtAny (← strSuffix out (min written out.count)) (args formatCount)
          if fmtTry < 0 then return -formatCount - 1
          anyFmtLoop out count args fmt (formatCount + 1) (written + fmtTry.toNat)

/-- `any__fmt`. -/
def anyFmt (out : Str) (fmt : CString) (count : ℤ) (args : ℕ → Any) : Fmt ℤ :=
  anyFmtLoop out count args fmt.bytes 0 0

/-! ### The text -/

/-- The text of a value, if its type is known. -/
def Any.text (value : Any) : Option (List Byte) :=
  match value.type with
  | .bool => some (if value.boolValue then CString.lit "true" else CString.lit "false").bytes
  | .u8 | .u16 | .u32 | .u64 => some (ntoaBuffer value.u64Value false).reverse
  | .i8 | .i16 | .i32 | .i64 =>
    some (ntoaBuffer (if value.u64Value.toInt < 0 then -value.u64Value else value.u64Value)
      (value.u64Value.toInt < 0)).reverse
  | .char => some [value.charValue]
  | .charPtr => some (value.ptr.elim [] CString.bytes)
  | .other _ => none

/-- The text of the rest of a format after `formatCount` arguments, if all of it can be formatted. -/
def render (count : ℤ) (args : ℕ → Any) : List Byte → ℕ → Option (List Byte)
  | [], formatCount => if (formatCount : ℤ) ≠ count then none else some []
  | c :: fmt, formatCount =>
    if c ≠ 37#8 then (render count args fmt formatCount).map (c :: ·)
    else
      match fmt with
      | [] => none
      | d :: fmt =>
        if d = 37#8 then (render count args fmt formatCount).map (37#8 :: ·)
        else if d ≠ 102#8 then none
        else if count ≤ formatCount then none
        else (args formatCount).text.bind fun t =>
          (render count args fmt (formatCount + 1)).map (t ++ ·)

/-- The stores that put `l` into the buffer from index `i` on. -/
def place : ℕ → List Byte → List Store
  | _, [] => []
  | i, b :: l => (i, b) :: place (i + 1) l

theorem place_append (i : ℕ) (l l' : List Byte) :
    place i (l ++ l') = place i l ++ place (i + l.length) l' := by
  induction l generalizing i with
  | nil => rfl
  | cons b l ih =>
    rw [List.cons_append, place, place, ih, List.length_cons, List.cons_append,
      show i + 1 + l.length = i + (l.length + 1) by omega]

/-- Two texts one after the other, cut off after `n` bytes. -/
theorem place_take_append (i n : ℕ) (l l' : List Byte) : place i ((l ++ l').take n) =
    place i (l.take n) ++ place (i + l.length) (l'.take (n - l.length)) := by
  rw [List.take_append, place_append]
  by_cases h : l.length ≤ n
  · rw [List.take_of_length_le h]
  · rw [show n - l.length = 0 by omega]
    rfl

/-- What is written after `written` bytes, one piece of the text, and then the rest. -/
theorem place_piece (out : Str) (l rest : List Byte) (written : ℕ) (w : List Store) :
    w ++ place (out.data + written) (l.take (out.count - written)) ++
        place (out.data + (written + l.length)) (rest.take (out.count - (written + l.length))) =
      w ++ place (out.data + written) ((l ++ rest).take (out.count - written)) := by
  rw [place_take_append, List.append_assoc, Nat.add_assoc, Nat.sub_sub]

/-- The function writes `text` to `out`, as much of it as there is room for, and returns its
length. -/
def Formats (m : Fmt ℤ) (out : Str) (text : List Byte) : Prop :=
  ∀ w, m w = (Except.ok (text.length : ℤ), w ++ place out.data (text.take out.count))

theorem run_bind {α β : Type} {m : Fmt α} {f : α → Fmt β} {w w' : List Store} {a : α}
    (h : m w = (Except.ok a, w')) : (m >>= f) w = f a w' := by
  show (ExceptT.bindCont f (m w).1) (m w).2 = _
  rw [h]
  rfl

theorem run_bind_error {α β : Type} {m : Fmt α} {f : α → Fmt β} {w w' : List Store} {call : FmtCall}
    (h : m w = (Except.error call, w')) : (m >>= f) w = (Except.error call, w') := by
  show (ExceptT.bindCont f (m w).1) (m w).2 = _
  rw [h]
  rfl

theorem run_map {α β : Type} {m : Fmt α} {f : α → β} {w w' : List Store} {a : α}
    (h : m w = (Except.ok a, w')) : (f <$> m) w = (Except.ok (f a), w') := by
  rw [← bind_pure_comp]
  exact run_bind h

theorem strcpyLoop_eq (dest : Str) (src : List Byte) (k : ℕ) (w : List Store) :
    strcpyLoop dest src k w = (Except.ok (k + min src.length (dest.count - k)),
      w ++ place (dest.data + k) (src.take (dest.count - k))) := by
  induction src generalizing k w with
  | nil =>
    rw [List.take_nil, place, List.append_nil, List.length_nil, Nat.zero_min, Nat.add_zero]
    rfl
  | cons b src ih =>
    rw [strcpyLoop]
    split_ifs with hk
    · have hcount : dest.count - k = dest.count - (k + 1) + 1 := by omega
      have hstore : store (dest.data + k) b w = (Except.ok (), w ++ [(dest.data + k, b)]) := rfl
      rw [run_bind hstore, ih, hcount, List.take_succ_cons, place, List.append_assoc, List.length_cons,
        show k + 1 + min src.length (dest.count - (k + 1)) =
          k + min (src.length + 1) (dest.count - (k + 1) + 1) by omega]
      rfl
    · rw [show dest.count - k = 0 by omega, List.take_zero, place, List.append_nil, Nat.min_zero,
        Nat.add_zero]
      rfl

theorem outBuffer_eq (b : Byte) (out : Str) (k : ℕ) (w : List Store) : outBuffer b out k w =
    (Except.ok (), w ++ place (out.data + k) ([b].take (out.count - k))) := by
  unfold outBuffer
  split_ifs with hk
  · rw [List.take_of_length_le (by rw [List.length_singleton]; omega)]
    rfl
  · rw [show out.count - k = 0 by omega, List.take_zero, place, List.append_nil]
    rfl

theorem putChar_eq (out : Str) (k : ℕ) (b : Byte) (w : List Store) : putChar out k b w =
    (Except.ok (), w ++ place (out.data + k) ([b].take (out.count - k))) :=
  outBuffer_eq b out k w

theorem outRev_eq (out : Str) (l : List Byte) (k : ℕ) (w : List Store) : outRev out l k w =
    (Except.ok (k + l.length), w ++ place (out.data + k) (l.take (out.count - k))) := by
  induction l generalizing k w with
  | nil =>
    rw [List.take_nil, place, List.append_nil]
    rfl
  | cons b l ih =>
    have hsplit := place_take_append (out.data + k) (out.count - k) [b] l
    rw [List.singleton_append, List.length_singleton, Nat.add_assoc, Nat.sub_sub] at hsplit
    rw [outRev, run_bind (outBuffer_eq b out k w), ih, hsplit, List.append_assoc, List.length_cons,
      show k + 1 + l.length = k + (l.length + 1) by omega]

theorem ntoaLong_formats (out : Str) (value : U64) (negative : Bool) :
    Formats (Nat.cast <$> ntoaLong out value negative) out (ntoaBuffer value negative).reverse := by
  intro w
  rw [ntoaLong, run_map (outRev_eq out _ 0 w), Nat.zero_add, Nat.add_zero, Nat.sub_zero]

theorem fmtString_formats (out : Str) (src : CString) :
    Formats (fmtString out src) out src.bytes := by
  intro w
  have hcopy := strcpyLoop_eq out src.bytes 0 w
  rw [Nat.zero_add, Nat.add_zero, Nat.sub_zero] at hcopy
  rw [fmtString, strcpyS, run_bind hcopy]
  have hlen : (strlen (some (src.drop (min src.bytes.length out.count))) : ℤ) =
      src.bytes.length - min src.bytes.length out.count := by
    rw [strlen, CString.drop, List.length_drop]
    omega
  have hsum : ((min src.bytes.length out.count : ℕ) : ℤ) +
      (strlen (some (src.drop (min src.bytes.length out.count))) : ℤ) = src.bytes.length := by
    rw [hlen]
    omega
  rw [hsum]
  rfl

theorem anyFmtAny_formats {value : Any} {text : List Byte} (h : value.text = some text) (out : Str) :
    Formats (anyFmtAny out value) out text := by
  unfold Any.text at h
  unfold anyFmtAny
  cases hty : value.type with
  | bool =>
    rw [hty] at h
    cases h
    exact fmtString_formats out _
  | u8 | u16 | u32 | u64 =>
    rw [hty] at h
    cases h
    exact ntoaLong_formats out _ _
  | i8 | i16 | i32 | i64 =>
    rw [hty] at h
    cases h
    exact ntoaLong_formats out _ _
  | char =>
    rw [hty] at h
    cases h
    intro w
    by_cases hroom : 1 ≤ out.count
    · rw [List.take_of_length_le (by rwa [List.length_singleton])]
      simp only [if_pos hroom]
      rfl
    · rw [show out.count = 0 by omega, List.take_zero, place, List.append_nil]
      rfl
  | charPtr =>
    rw [hty] at h
    cases h
    cases hptr : value.ptr with
    | none =>
      intro w
      simp only [Option.elim_none, List.take_nil, place, List.append_nil]
      rfl
    | some src => exact fmtString_formats out src
  | other tag =>
    rw [hty] at h
    cases h

theorem anyFmtAny_unknown {value : Any} (h : value.text = none) (out : Str) (w : List Store) :
    anyFmtAny out value w = (Except.ok (-1), w) := by
  unfold Any.text at h
  unfold anyFmtAny
  cases hty : value.type with
  | other tag => rfl
  | _ =>
    rw [hty] at h
    cases h

theorem Any.text_ne_none_iff (value : Any) : value.text ≠ none ↔ value.Known := by
  unfold Any.text Any.Known
  cases value.type with
  | other tag => simp
  | _ => simp

theorem strSuffix_of_le {str : Str} {begin' : ℕ} (h : begin' ≤ str.count) (w : List Store) :
    strSuffix str begin' w = (Except.ok ⟨str.data + begin', str.count - begin'⟩, w) := by
  rw [strSuffix, assert, assert, if_pos (Int.natCast_nonneg _), if_pos (Nat.cast_le.2 h),
    Int.toNat_natCast]
  rfl

theorem strSuffix_of_lt {str : Str} {begin' : ℕ} (h : str.count < begin') (w : List Store) :
    ∃ call, strSuffix str begin' w = (Except.error call, w) := by
  rw [strSuffix, assert, assert, if_pos (Int.natCast_nonneg _),
    if_neg (not_le.2 (Nat.cast_lt.2 h))]
  exact ⟨_, rfl⟩

/-- The suffix behind `written` bytes, if there is one. -/
theorem strSuffix_min (out : Str) (written : ℕ) (w : List Store) :
    strSuffix out (min (written : ℤ) out.count) w =
      (Except.ok ⟨out.data + min written out.count, out.count - written⟩, w) := by
  rw [← Nat.cast_min, strSuffix_of_le (Nat.min_le_right _ _),
    show out.count - min written out.count = out.count - written by omega]

/-- A value behind `written` bytes. -/
theorem anyFmtAny_behind {value : Any} {l : List Byte} (h : value.text = some l) (out : Str)
    (written : ℕ) (w : List Store) :
    anyFmtAny ⟨out.data + min written out.count, out.count - written⟩ value w =
      (Except.ok (l.length : ℤ), w ++ place (out.data + written) (l.take (out.count - written))) := by
  have hplace : place (out.data + min written out.count) (l.take (out.count - written)) =
      place (out.data + written) (l.take (out.count - written)) := by
    by_cases hw : written ≤ out.count
    · rw [min_eq_left hw]
    · rw [show out.count - written = 0 by omega]
      rfl
  rw [anyFmtAny_formats h, hplace]

/-- **The loop of `any__fmt`** on a format with a text. -/
theorem anyFmtLoop_render (out : Str) {count : ℤ} {args : ℕ → Any} (fmt : List Byte)
    (formatCount : ℕ) : ∀ {text}, render count args fmt formatCount = some text → ∀ written w,
      anyFmtLoop out count args fmt formatCount written w = (Except.ok ((written + text.length : ℕ) : ℤ),
        w ++ place (out.data + written) (text.take (out.count - written))) := by
  fun_induction render count args fmt formatCount with
  | case1 k hk => exact fun h => by cases h
  | case2 k hk =>
    intro text h written w
    cases h
    rw [anyFmtLoop, if_neg hk, List.take_nil, place, List.append_nil]
    rfl
  | case3 c fmt k hc ih =>
    intro text h written w
    obtain ⟨rest, hrest, rfl⟩ := Option.map_eq_some_iff.1 h
    unfold anyFmtLoop
    rw [if_pos hc, run_bind (putChar_eq out written c w), ih hrest,
      show c :: rest = [c] ++ rest from rfl, ← place_piece, List.length_append, List.length_singleton,
      Nat.add_assoc]
  | case4 c k hc => exact fun h => by cases h
  | case5 c k hc fmt ih =>
    intro text h written w
    obtain ⟨rest, hrest, rfl⟩ := Option.map_eq_some_iff.1 h
    rw [anyFmtLoop, if_neg hc]
    simp only [if_true]
    rw [run_bind (putChar_eq out written 37#8 w), ih hrest,
      show 37#8 :: rest = [37#8] ++ rest from rfl, ← place_piece, List.length_append,
      List.length_singleton, Nat.add_assoc]
  | case6 c k hc d fmt hd hf => exact fun h => by cases h
  | case7 c k hc d fmt hd hf hk => exact fun h => by cases h
  | case8 c k hc d fmt hd hf hk ih =>
    intro text h written w
    obtain ⟨l, hl, h⟩ := Option.bind_eq_some_iff.1 h
    obtain ⟨rest, hrest, rfl⟩ := Option.map_eq_some_iff.1 h
    rw [anyFmtLoop, if_neg hc]
    simp only [if_neg hd, if_neg hf, if_neg hk]
    rw [run_bind (strSuffix_min out written w), run_bind (anyFmtAny_behind hl out written w),
      if_neg (not_lt.2 (Int.natCast_nonneg _)), Int.toNat_natCast, ih hrest, place_piece,
      List.length_append, Nat.add_assoc]

/-- `any__fmt` on a format with a text. -/
theorem anyFmt_render (out : Str) {fmt : CString} {count : ℤ} {args : ℕ → Any} {text : List Byte}
    (h : render count args fmt.bytes 0 = some text) : Formats (anyFmt out fmt count args) out text := by
  intro w
  rw [anyFmt, anyFmtLoop_render out fmt.bytes 0 h 0 w, Nat.zero_add, Nat.add_zero, Nat.sub_zero]

/-! ### Formats without a text -/

/-- A piece of a format: a character, or a `%f`. -/
inductive Piece
  | char (c : Byte)
  | arg
  deriving DecidableEq

/-- The pieces of a format before its first `%` that starts no directive, and whether there is no such
`%`. -/
def pieces : List Byte → List Piece × Bool
  | [] => ([], true)
  | c :: fmt =>
    if c ≠ 37#8 then (.char c :: (pieces fmt).1, (pieces fmt).2)
    else
      match fmt with
      | [] => ([], false)
      | d :: fmt =>
        if d = 37#8 then (.char 37#8 :: (pieces fmt).1, (pieces fmt).2)
        else if d ≠ 102#8 then ([], false)
        else (.arg :: (pieces fmt).1, (pieces fmt).2)

/-- The arguments from number `k` up to `j` can be rendered for the pieces `l`, and number `j` cannot,
or there is no piece for it. -/
structure FailsAt (count : ℤ) (args : ℕ → Any) (l : List Piece) (k j : ℕ) : Prop where
  le : k ≤ j
  le_pieces : j ≤ k + l.count .arg
  rendered : ∀ i, k ≤ i → i < j → (i : ℤ) < count ∧ (args i).Known
  fails : j = k + l.count .arg ∨ ¬ ((j : ℤ) < count ∧ (args j).Known)

section

variable {count : ℤ} {args : ℕ → Any}

/-- Nothing is left of the pieces. -/
theorem failsAt_nil (k : ℕ) : FailsAt count args [] k k where
  le := le_refl k
  le_pieces := Nat.le_add_right _ _
  rendered _ hi hi' := absurd hi' (not_lt.2 hi)
  fails := Or.inl rfl

theorem FailsAt.char {l : List Piece} {k j : ℕ} (h : FailsAt count args l k j) (c : Byte) :
    FailsAt count args (.char c :: l) k j := by
  have hcount : (Piece.char c :: l).count .arg = l.count .arg := List.count_cons_of_ne (by simp)
  exact ⟨h.le, hcount ▸ h.le_pieces, h.rendered, hcount ▸ h.fails⟩

/-- The next argument cannot be rendered. -/
theorem failsAt_arg {l : List Piece} {k : ℕ} (h : ¬ ((k : ℤ) < count ∧ (args k).Known)) :
    FailsAt count args (.arg :: l) k k where
  le := le_refl k
  le_pieces := Nat.le_add_right _ _
  rendered _ hi hi' := absurd hi' (not_lt.2 hi)
  fails := Or.inr h

/-- The next argument is rendered. -/
theorem FailsAt.arg {l : List Piece} {k j : ℕ} (h : FailsAt count args l (k + 1) j)
    (hk : (k : ℤ) < count ∧ (args k).Known) : FailsAt count args (.arg :: l) k j := by
  have hcount : (Piece.arg :: l).count .arg = l.count .arg + 1 := List.count_cons_self
  obtain ⟨hle, hpieces, hrendered, hfails⟩ := h
  refine ⟨by omega, by omega, ?_, ?_⟩
  · intro i hi hi'
    rcases Nat.eq_or_lt_of_le hi with rfl | hlt
    · exact hk
    · exact hrendered i hlt hi'
  · rcases hfails with hj | hno
    · left
      omega
    · exact Or.inr hno

end

/-- The index is one of the part of the buffer. -/
def Str.Contains (out : Str) (i : ℕ) : Prop := out.data ≤ i ∧ i < out.data + out.count

theorem mem_place {i : ℕ} {l : List Byte} {x : Store} (h : x ∈ place i l) :
    i ≤ x.1 ∧ x.1 < i + l.length := by
  induction l generalizing i with
  | nil => cases h
  | cons b l ih =>
    rw [List.length_cons]
    rcases List.mem_cons.1 h with rfl | h
    · exact ⟨le_refl i, by omega⟩
    · have := ih h
      omega

theorem contains_of_mem_place {out : Str} {written : ℕ} {l : List Byte} {x : Store}
    (h : x ∈ place (out.data + written) (l.take (out.count - written))) : out.Contains x.1 := by
  have hx := mem_place h
  rw [List.length_take] at hx
  unfold Str.Contains
  omega

/-- The loop of `any__fmt` on a format without a text. -/
theorem anyFmtLoop_fails (out : Str) {count : ℤ} {args : ℕ → Any} (fmt : List Byte)
    (formatCount : ℕ) : render count args fmt formatCount = none → ∀ written w, ∃ (j : ℕ) (l : _),
      anyFmtLoop out count args fmt formatCount written w = (Except.ok (-(j : ℤ) - 1), w ++ l) ∧
        FailsAt count args (pieces fmt).1 formatCount j ∧ ∀ x ∈ l, out.Contains x.1 := by
  have hnil (x : Store) (hx : x ∈ []) : out.Contains x.1 := by cases hx
  -- what is written before the rest of the format is behind `written` bytes
  have happend {written : ℕ} {text : List Byte} {l : List Store} (h : ∀ x ∈ l, out.Contains x.1) :
      ∀ x ∈ place (out.data + written) (text.take (out.count - written)) ++ l, out.Contains x.1 := by
    intro x hx
    rcases List.mem_append.1 hx with hx | hx
    · exact contains_of_mem_place hx
    · exact h x hx
  fun_induction render count args fmt formatCount with
  | case1 k hk =>
    intro h written w
    refine ⟨k, [], ?_, failsAt_nil k, hnil⟩
    rw [anyFmtLoop, if_pos hk, List.append_nil]
    rfl
  | case2 k hk => exact fun h => by cases h
  | case3 c fmt k hc ih =>
    intro h written w
    unfold anyFmtLoop pieces
    rw [if_pos hc, if_pos hc, run_bind (putChar_eq out written c w)]
    obtain ⟨j, l, hrun, hj, hl⟩ := ih (Option.map_eq_none_iff.1 h) (written + 1) _
    exact ⟨j, _, hrun.trans (by rw [List.append_assoc]), hj.char c, happend hl⟩
  | case4 c k hc =>
    intro h written w
    rw [anyFmtLoop, if_neg hc, pieces, if_neg hc]
    exact ⟨k, [], by rw [List.append_nil]; rfl, failsAt_nil k, hnil⟩
  | case5 c k hc fmt ih =>
    intro h written w
    rw [anyFmtLoop, if_neg hc, pieces, if_neg hc]
    simp only [if_true]
    rw [run_bind (putChar_eq out written 37#8 w)]
    obtain ⟨j, l, hrun, hj, hl⟩ := ih (Option.map_eq_none_iff.1 h) (written + 1) _
    exact ⟨j, _, hrun.trans (by rw [List.append_assoc]), hj.char 37#8, happend hl⟩
  | case6 c k hc d fmt hd hf =>
    intro h written w
    rw [anyFmtLoop, if_neg hc, pieces, if_neg hc]
    simp only [if_neg hd, if_pos hf]
    exact ⟨k, [], by rw [List.append_nil]; rfl, failsAt_nil k, hnil⟩
  | case7 c k hc d fmt hd hf hk =>
    intro h written w
    rw [anyFmtLoop, if_neg hc, pieces, if_neg hc]
    simp only [if_neg hd, if_neg hf, if_pos hk]
    exact ⟨k, [], by rw [List.append_nil]; rfl, failsAt_arg fun hlt => absurd hlt.1 (not_lt.2 hk), hnil⟩
  | case8 c k hc d fmt hd hf hk ih =>
    intro h written w
    rw [anyFmtLoop, if_neg hc, pieces, if_neg hc]
    simp only [if_neg hd, if_neg hf, if_neg hk]
    rw [run_bind (strSuffix_min out written w)]
    cases hl : (args k).text with
    | none =>
      have hunknown : ¬ (args k).Known := fun hknown => (Any.text_ne_none_iff _).2 hknown hl
      rw [run_bind (anyFmtAny_unknown hl _ w)]
      exact ⟨k, [], by rw [List.append_nil]; rfl, failsAt_arg fun hlt => hunknown hlt.2, hnil⟩
    | some t =>
      have hknown : (args k).Known := (Any.text_ne_none_iff _).1 (by rw [hl]; exact Option.some_ne_none t)
      rw [hl, Option.bind_some] at h
      rw [run_bind (anyFmtAny_behind hl out written w), if_neg (not_lt.2 (Int.natCast_nonneg _))]
      obtain ⟨j, l, hrun, hj, hl⟩ := ih (Option.map_eq_none_iff.1 h) (written + t.length) _
      exact ⟨j, _, hrun.trans (by rw [List.append_assoc]), hj.arg ⟨not_le.1 hk, hknown⟩, happend hl⟩

/-- `any__fmt` on a format without a text. -/
theorem anyFmt_fails (out : Str) {fmt : CString} {count : ℤ} {args : ℕ → Any}
    (h : render count args fmt.bytes 0 = none) (w : List Store) :
    ∃ (j : ℕ) (l : _), anyFmt out fmt count args w = (Except.ok (-(j : ℤ) - 1), w ++ l) ∧
      FailsAt count args (pieces fmt.bytes).1 0 j ∧ ∀ x ∈ l, out.Contains x.1 :=
  anyFmtLoop_fails out fmt.bytes 0 h 0 w

/-! ### Formats with a text -/

/-- The number of `%f` in the rest of a format, if every `%` in it starts a `%%` or a `%f`. -/
def directives : List Byte → Option ℕ
  | [] => some 0
  | c :: fmt =>
    if c ≠ 37#8 then directives fmt
    else
      match fmt with
      | [] => none
      | d :: fmt =>
        if d = 37#8 then directives fmt
        else if d ≠ 102#8 then none
        else (directives fmt).map (· + 1)

/-- There is a text if there is an argument of a known type for each directive, and no other. -/
theorem exists_render_iff (count : ℤ) (args : ℕ → Any) (fmt : List Byte) (formatCount : ℕ) :
    (∃ text, render count args fmt formatCount = some text) ↔
      ∃ d, directives fmt = some d ∧ (formatCount : ℤ) + d = count ∧
        ∀ i, formatCount ≤ i → i < formatCount + d → (args i).Known := by
  fun_induction render count args fmt formatCount with
  | case1 k hk => simp [directives, hk]
  | case2 k hk =>
    refine iff_of_true ⟨[], rfl⟩ ⟨0, rfl, by simpa using hk, ?_⟩
    intro i hi hi'
    omega
  | case3 c fmt k hc ih =>
    unfold directives
    rw [if_pos hc, ← ih]
    simp
  | case4 c k hc => simp [directives, hc]
  | case5 c k hc fmt ih =>
    rw [directives, if_neg hc]
    simp only [if_true]
    rw [← ih]
    simp
  | case6 c k hc d fmt hd hf => simp [directives, hc, hd, hf]
  | case7 c k hc d fmt hd hf hk =>
    rw [directives, if_neg hc]
    simp only [if_neg hd, if_neg hf]
    simp only [reduceCtorEq, exists_false, false_iff]
    rintro ⟨n, hn, hcount, -⟩
    obtain ⟨m, -, rfl⟩ := Option.map_eq_some_iff.1 hn
    push_cast at hcount
    omega
  | case8 c k hc d fmt hd hf hk ih =>
    rw [directives, if_neg hc]
    simp only [if_neg hd, if_neg hf]
    constructor
    · rintro ⟨text, h⟩
      obtain ⟨l, hl, h⟩ := Option.bind_eq_some_iff.1 h
      obtain ⟨rest, hrest, -⟩ := Option.map_eq_some_iff.1 h
      obtain ⟨n, hn, hcount, hknown⟩ := ih.1 ⟨rest, hrest⟩
      refine ⟨n + 1, by rw [hn]; rfl, by push_cast at hcount ⊢; omega, ?_⟩
      intro i hi hi'
      rcases Nat.eq_or_lt_of_le hi with rfl | hlt
      · exact (Any.text_ne_none_iff _).1 (by rw [hl]; exact Option.some_ne_none _)
      · exact hknown i hlt (by omega)
    · rintro ⟨n, hn, hcount, hknown⟩
      obtain ⟨m, hm, rfl⟩ := Option.map_eq_some_iff.1 hn
      obtain ⟨rest, hrest⟩ := ih.2 ⟨m, hm, by push_cast at hcount ⊢; omega,
        fun i hi hi' => hknown i (by omega) (by omega)⟩
      obtain ⟨l, hl⟩ := Option.ne_none_iff_exists'.1
        ((Any.text_ne_none_iff (args k)).2 (hknown k (le_refl k) (by omega)))
      exact ⟨l ++ rest, by rw [hl, Option.bind_some, hrest]; rfl⟩

end Dumboss.Logger
