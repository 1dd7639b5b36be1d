import Mathlib.Data.BitVec
import Mathlib.Tactic.FinCases

/-! The url codec (`src/unnamed/part_000`).

`url_encode` keeps ASCII letters and digits and writes every other byte as `%` and two
uppercase hex digits; `url_decode` reads `%` and the two characters after it as one byte, `+`
as a space, and anything else as itself. Both walk a NUL-terminated string with a pointer and
write into a buffer they allocate with `malloc`: `3 * strlen + 1` bytes for `url_encode`,
`strlen + 1` for `url_decode`.

A `char` is eight bits, signed where the code computes with it: `BitVec 8`, with `*pstr >> 4`
the arithmetic shift `sshiftRight`. The loops are modelled at the level of their pointers
(`encodeLoop`, `decodeLoop`): `pstr` is the memory from the pointer on, so a read past its
end is `none`, and the output is the bytes written into an allocation of a given size, so a
write past it is `none` too. A string's memory ends at its NUL (`CString.mem`); that a call
returns at all means it read no byte past the NUL and wrote none past its buffer.

* `url_round_trip`: `url_decode` undoes `url_encode` on every string, bytes of `0x80` and
  above included, and what `url_encode` writes is letters, digits and `%` escapes.
* `url_buffers_bounded`: on every string, malformed escapes included, `url_encode` writes
  `strlen + 2 * (non-alphanumeric bytes) + 1` bytes and `url_decode` at most `strlen + 1`. -/
namespace Yabtorrent
namespace Url

/-- A NUL-terminated C string: the bytes before its terminating NUL. -/
structure CString where
  bytes : List (BitVec 8)
  nul_free : 0#8 ∉ bytes

/-- The string in memory: its bytes, then the NUL. -/
def CString.mem (s : CString) : List (BitVec 8) := s.bytes ++ [0#8]

/-! ### The character classes of the C locale

A `char` of `0x80` and above is negative, and belongs to no class. -/

def isDigit (c : BitVec 8) : Bool := 48 ≤ c.toNat && c.toNat ≤ 57

def isUpper (c : BitVec 8) : Bool := 65 ≤ c.toNat && c.toNat ≤ 90

def isLower (c : BitVec 8) : Bool := 97 ≤ c.toNat && c.toNat ≤ 122

def isAlnum (c : BitVec 8) : Bool := isDigit c || isUpper c || isLower c

def toLower (c : BitVec 8) : BitVec 8 := if isUpper c then c + 32#8 else c

/-! ### The codec -/

/-- `from_hex`: the value of a hex digit, computed in `int` and returned as a `char`. -/
def fromHex (ch : BitVec 8) : BitVec 8 :=
  if isDigit ch then ch - 48#8 else toLower ch - 97#8 + 10#8

/-- The table `hex` of `to_hex`. -/
def hexDigits : List (BitVec 8) := "0123456789ABCDEF".toList.map fun c => BitVec.ofNat 8 c.toNat

/-- `to_hex`: the hex digit of the low four bits of `code`. -/
def toHex (code : BitVec 8) : BitVec 8 := hexDigits.getD (code &&& 15#8).toNat 0#8

/-- A write through `pbuf` into an allocation of `size` bytes that holds `buf`: `none` past
its end. -/
def put (size : Nat) (buf : List (BitVec 8)) (c : BitVec 8) : Option (List (BitVec 8)) :=
  if buf.length < size then some (buf ++ [c]) else none

/-- `strlen`: `none` when it runs off the memory before a NUL. -/
def strlen : List (BitVec 8) → Option Nat
  | [] => none
  | c :: pstr => if c = 0#8 then some 0 else (strlen pstr).map (· + 1)

/-- The loop of `url_encode`, then its closing `*pbuf = '\0'`. -/
def encodeLoop (size : Nat) : List (BitVec 8) → List (BitVec 8) → Option (List (BitVec 8))
  | [], _ => none
  | c :: pstr, buf =>
    if c = 0#8 then put size buf 0#8
    else if isAlnum c then (put size buf c).bind (encodeLoop size pstr)
    else do
      let buf ← put size buf 37#8
      let buf ← put size buf (toHex (c.sshiftRight 4))
      let buf ← put size buf (toHex (c &&& 15#8))
      encodeLoop size pstr buf

/-- `url_encode`: the bytes written into its buffer. -/
def urlEncode (str : List (BitVec 8)) : Option (List (BitVec 8)) := do
  let n ← strlen str
  encodeLoop (n * 3 + 1) str []

/-- The loop of `url_decode`, then its closing `*pbuf = '\0'`. An escape reads `pstr[1]`, and
`pstr[2]` only when `pstr[1]` is no NUL; a cut-off escape skips its `%`. -/
def decodeLoop (size : Nat) (pstr buf : List (BitVec 8)) : Option (List (BitVec 8)) :=
  match _h : pstr with
  | [] => none
  | c :: _ =>
    if c = 0#8 then put size buf 0#8
    else if c = 37#8 then do
      let a ← pstr[1]?
      if a ≠ 0#8 then
        let b ← pstr[2]?
        if b ≠ 0#8 then
          let buf ← put size buf ((fromHex a <<< 4) ||| fromHex b)
          decodeLoop size (pstr.drop 3) buf
        else decodeLoop size (pstr.drop 1) buf
      else decodeLoop size (pstr.drop 1) buf
    else if c = 43#8 then (put size buf 32#8).bind (decodeLoop size (pstr.drop 1))
    else (put size buf c).bind (decodeLoop size (pstr.drop 1))
termination_by pstr.length
decreasing_by all_goals simp_wf; simp only [_h, List.length_cons, List.length_drop]; omega

/-- `url_decode`: the bytes written into its buffer. -/
def urlDecode (str : List (BitVec 8)) : Option (List (BitVec 8)) := do
  let n ← strlen str
  decodeLoop (n + 1) str []

/-- What `url_encode` makes of one byte. -/
def encodeByte (c : BitVec 8) : List (BitVec 8) :=
  if isAlnum c then [c] else [37#8, toHex (c.sshiftRight 4), toHex (c &&& 15#8)]

/-- What `url_encode` makes of a string. -/
def encode (s : List (BitVec 8)) : List (BitVec 8) := s.flatMap encodeByte

/-! ### Bytes -/

theorem isAlnum_ne {c : BitVec 8} (h : isAlnum c = true) : c ≠ 0#8 ∧ c ≠ 37#8 ∧ c ≠ 43#8 := by
  refine ⟨?_, ?_, ?_⟩ <;> rintro rfl <;> simp [isAlnum, isDigit, isUpper, isLower] at h

theorem hexDigits_ne_nul : ∀ d ∈ hexDigits, d ≠ 0#8 := by
  rintro _ hd rfl
  exact absurd hd (by decide)

theorem low_nibble_lt (code : BitVec 8) : (code &&& 15#8).toNat < 16 := by
  rw [BitVec.toNat_and]
  exact Nat.lt_succ_of_le Nat.and_le_right

theorem toHex_mem (code : BitVec 8) : toHex code ∈ hexDigits := by
  have hk : (code &&& 15#8).toNat < hexDigits.length := low_nibble_lt code
  rw [toHex, List.getD_eq_getElem?_getD, List.getElem?_eq_getElem hk]
  exact List.getElem_mem hk

theorem toHex_ne_nul (code : BitVec 8) : toHex code ≠ 0#8 := hexDigits_ne_nul _ (toHex_mem code)

theorem fromHex_hexDigits : ∀ k : Fin 16, fromHex (hexDigits.getD k 0#8) = BitVec.ofNat 8 k := by
  decide

theorem fromHex_toHex (code : BitVec 8) : fromHex (toHex code) = code &&& 15#8 := by
  rw [toHex, fromHex_hexDigits ⟨_, low_nibble_lt code⟩, BitVec.ofNat_toNat, BitVec.setWidth_eq]

/-- The arithmetic shift of a negative `char` fills its high bits with ones; `to_hex` masks
them off, so the escape of every byte decodes to it. -/
theorem escape_decodes (c : BitVec 8) :
    (fromHex (toHex (c.sshiftRight 4)) <<< 4) ||| fromHex (toHex (c &&& 15#8)) = c := by
  rw [fromHex_toHex, fromHex_toHex]
  ext i
  fin_cases i <;> simp [BitVec.getLsbD_sshiftRight]

/-! ### `url_encode` -/

@[simp] theorem encode_cons (c : BitVec 8) (s : List (BitVec 8)) :
    encode (c :: s) = encodeByte c ++ encode s :=
  List.flatMap_cons _ _ _

theorem strlen_mem (s : List (BitVec 8)) (hs : 0#8 ∉ s) : strlen (s ++ [0#8]) = some s.length := by
  induction s with
  | nil => simp [strlen]
  | cons c s ih =>
    have hc : c ≠ 0#8 := fun e => hs (e ▸ List.mem_cons_self _ _)
    simp [strlen, hc, ih (fun h => hs (List.mem_cons_of_mem _ h))]

theorem encode_length (s : List (BitVec 8)) :
    (encode s).length = s.length + 2 * s.countP (fun c => !isAlnum c) := by
  induction s with
  | nil => rfl
  | cons c s ih =>
    rw [encode_cons, List.length_append, ih, encodeByte, List.countP_cons]
    split <;> simp_all <;> omega

theorem encodeLoop_eq (size : Nat) : ∀ (s buf : List (BitVec 8)), 0#8 ∉ s →
    buf.length + (encode s).length < size →
      encodeLoop size (s ++ [0#8]) buf = some (buf ++ encode s ++ [0#8])
  | [], buf, _, h => by simpa [encodeLoop, put, encode] using h
  | c :: s, buf, hs, h => by
    have hc : c ≠ 0#8 := fun e => hs (e ▸ List.mem_cons_self _ _)
    have ih := encodeLoop_eq size s
    rw [encode_cons, List.length_append] at h
    rw [List.cons_append, encodeLoop, if_neg hc, encode_cons]
    by_cases ha : isAlnum c
    · simp only [encodeByte, ha, if_true, List.length_singleton] at h ⊢
      rw [put, if_pos (by omega), Option.some_bind, ih _ (fun h => hs (List.mem_cons_of_mem _ h))
        (by simp; omega)]
      simp
    · simp only [encodeByte, ha, Bool.false_eq_true, if_false, List.length_cons,
        List.length_nil] at h ⊢
      simp only [put, Option.bind_eq_bind, List.length_append, List.length_singleton,
        if_pos (show buf.length < size by omega), if_pos (show buf.length + 1 < size by omega),
        if_pos (show buf.length + 1 + 1 < size by omega), Option.some_bind]
      rw [ih _ (fun h => hs (List.mem_cons_of_mem _ h)) (by simp; omega)]
      simp

theorem encode_nul_free (s : List (BitVec 8)) : 0#8 ∉ encode s := by
  simp only [encode, List.mem_flatMap, not_exists, not_and]
  intro c _
  unfold encodeByte
  split <;> rename_i ha
  · simpa using (isAlnum_ne ha).1.symm
  · simp only [List.mem_cons, List.not_mem_nil, or_false, not_or]
    exact ⟨by decide, (toHex_ne_nul _).symm, (toHex_ne_nul _).symm⟩

theorem urlEncode_mem (s : CString) : urlEncode s.mem = some (encode s.bytes ++ [0#8]) := by
  have hc := List.countP_le_length (fun c => !isAlnum c) (l := s.bytes)
  rw [urlEncode, CString.mem, strlen_mem _ s.nul_free, Option.bind_eq_bind, Option.some_bind]
  exact encodeLoop_eq _ _ [] s.nul_free (by rw [encode_length]; simp; omega)

/-! ### `url_decode`

The loop's four ways on, one equation each: the NUL, a byte passed through (`+` as a space), a
whole escape, and an escape cut off by a NUL, which skips only its `%`. -/

theorem decodeLoop_nul (size : Nat) (pstr buf : List (BitVec 8)) :
    decodeLoop size (0#8 :: pstr) buf = put size buf 0#8 := by
  rw [decodeLoop.eq_def]; simp

theorem decodeLoop_plain (size : Nat) {c : BitVec 8} (h0 : c ≠ 0#8) (h37 : c ≠ 37#8)
    (pstr buf : List (BitVec 8)) :
    decodeLoop size (c :: pstr) buf =
      (put size buf (if c = 43#8 then 32#8 else c)).bind (decodeLoop size pstr) := by
  rw [decodeLoop.eq_def]; by_cases h43 : c = 43#8 <;> simp [h0, h37, h43]

theorem decodeLoop_escape (size : Nat) {a b : BitVec 8} (ha : a ≠ 0#8) (hb : b ≠ 0#8)
    (pstr buf : List (BitVec 8)) :
    decodeLoop size (37#8 :: a :: b :: pstr) buf =
      (put size buf ((fromHex a <<< 4) ||| fromHex b)).bind (decodeLoop size pstr) := by
  rw [decodeLoop.eq_def]; simp [ha, hb]

theorem decodeLoop_cut (size : Nat) {a : BitVec 8} (pstr buf : List (BitVec 8))
    (h : a = 0#8 ∨ pstr.head? = some 0#8) :
    decodeLoop size (37#8 :: a :: pstr) buf = decodeLoop size (a :: pstr) buf := by
  rw [decodeLoop.eq_def]; rcases h with rfl | h <;> cases pstr <;> simp_all

theorem decodeLoop_encode (size : Nat) : ∀ (s buf : List (BitVec 8)),
    buf.length + s.length < size →
      decodeLoop size (encode s ++ [0#8]) buf = some (buf ++ s ++ [0#8])
  | [], buf, h => by simpa [encode, decodeLoop_nul, put] using h
  | c :: s, buf, h => by
    have hput : put size buf c = some (buf ++ [c]) := if_pos (by simp at h; omega)
    have ih := decodeLoop_encode size s (buf ++ [c]) (by simp at h ⊢; omega)
    rw [encode_cons, encodeByte, List.append_assoc]
    split <;> rename_i ha
    · obtain ⟨h0, h37, h43⟩ := isAlnum_ne ha
      rw [List.singleton_append, decodeLoop_plain size h0 h37, if_neg h43, hput, Option.some_bind,
        ih]
      simp
    · rw [List.cons_append, List.cons_append, List.cons_append, List.nil_append,
        decodeLoop_escape size (toHex_ne_nul _) (toHex_ne_nul _),
        escape_decodes, hput, Option.some_bind, ih]
      simp

theorem decodeLoop_bound (size : Nat) (t buf : List (BitVec 8)) (ht : 0#8 ∉ t)
    (h : buf.length + t.length < size) :
    ∃ out, decodeLoop size (t ++ [0#8]) buf = some out ∧
      out.length ≤ buf.length + t.length + 1 := by
  induction' hn : t.length using Nat.strong_induction_on with n ih generalizing t buf
  subst hn
  rcases t with _ | ⟨c, t'⟩
  · exact ⟨buf ++ [0#8], by simpa [decodeLoop_nul, put] using h, by simp⟩
  have ht' : 0#8 ∉ t' := fun e => ht (List.mem_cons_of_mem _ e)
  simp only [List.length_cons, List.cons_append] at h ih ⊢
  by_cases h37 : c = 37#8
  · subst h37
    rcases t' with _ | ⟨a, _ | ⟨b, rest⟩⟩
    · rw [List.nil_append, decodeLoop_cut size _ _ (.inl rfl), decodeLoop_nul]
      exact ⟨buf ++ [0#8], if_pos (by omega), by simp⟩
    · rw [List.singleton_append, decodeLoop_cut size [0#8] buf (.inr rfl)]
      simp only [List.length_singleton] at h ih
      obtain ⟨out, h1, h2⟩ := ih 1 (by omega) [a] buf ht' (by simp; omega) rfl
      exact ⟨out, h1, by simp; omega⟩
    · have ha : a ≠ 0#8 := fun e => ht' (e ▸ List.mem_cons_self _ _)
      have hb : b ≠ 0#8 := fun e => ht' (e ▸ List.mem_cons_of_mem _ (List.mem_cons_self _ _))
      obtain ⟨out, h1, h2⟩ := ih rest.length (by simp; omega) rest
        (buf ++ [(fromHex a <<< 4) ||| fromHex b])
        (fun e => ht' (List.mem_cons_of_mem _ (List.mem_cons_of_mem _ e))) (by simp at h ⊢; omega) rfl
      refine ⟨out, ?_, by simp at h2 ⊢; omega⟩
      rw [List.cons_append, List.cons_append, decodeLoop_escape size ha hb, put,
        if_pos (by simp at h; omega), Option.some_bind, h1]
  · have hc : c ≠ 0#8 := fun e => ht (e ▸ List.mem_cons_self _ _)
    obtain ⟨out, h1, h2⟩ := ih t'.length (by omega) t' (buf ++ [if c = 43#8 then 32#8 else c]) ht'
      (by simp; omega) rfl
    refine ⟨out, ?_, by simp at h2; omega⟩
    rw [decodeLoop_plain size hc h37, put, if_pos (by omega), Option.some_bind, h1]

/-! ### The codec on every string -/

/-- **The round trip.** `url_decode` gives back every string `url_encode` was given, bytes of
`0x80` and above included, and `url_encode` writes only ASCII letters and digits and `%`
followed by two uppercase hex digits. -/
theorem url_round_trip (s : CString) :
    ∃ out : CString, urlEncode s.mem = some out.mem ∧ urlDecode out.mem = some s.mem ∧
      ∃ toks : List (List (BitVec 8)), out.bytes = toks.flatten ∧
        ∀ t ∈ toks, (∃ c, t = [c] ∧ isAlnum c = true) ∨
          ∃ h ∈ hexDigits, ∃ l ∈ hexDigits, t = [37#8, h, l] := by
  have hlen : s.bytes.length ≤ (encode s.bytes).length := by rw [encode_length]; omega
  refine ⟨⟨encode s.bytes, encode_nul_free _⟩, urlEncode_mem s, ?_, s.bytes.map encodeByte,
    List.flatMap_def _ _, fun t ht => ?_⟩
  · rw [urlDecode, CString.mem, strlen_mem _ (encode_nul_free _), Option.bind_eq_bind,
      Option.some_bind, decodeLoop_encode _ _ [] (by simp; omega)]
    rfl
  · obtain ⟨c, -, rfl⟩ := List.mem_map.mp ht
    unfold encodeByte
    split <;> rename_i ha
    · exact .inl ⟨c, rfl, ha⟩
    · exact .inr ⟨_, toHex_mem _, _, toHex_mem _, rfl⟩

/-- **The buffers hold.** On every string, malformed escapes included, `url_encode` writes
`strlen + 2 * (non-alphanumeric bytes) + 1` bytes, within its `3 * strlen + 1`, and
`url_decode` at most `strlen + 1`; neither reads past the NUL. -/
theorem url_buffers_bounded (s : CString) :
    (∃ out, urlEncode s.mem = some out ∧
      out.length = s.bytes.length + 2 * s.bytes.countP (fun c => !isAlnum c) + 1 ∧
      out.length ≤ 3 * s.bytes.length + 1) ∧
    ∃ out, urlDecode s.mem = some out ∧ out.length ≤ s.bytes.length + 1 := by
  have hc := List.countP_le_length (fun c => !isAlnum c) (l := s.bytes)
  refine ⟨⟨_, urlEncode_mem s, by simp [encode_length], by simp [encode_length]; omega⟩, ?_⟩
  rw [urlDecode, CString.mem, strlen_mem _ s.nul_free, Option.bind_eq_bind, Option.some_bind]
  simpa using decodeLoop_bound (s.bytes.length + 1) s.bytes [] s.nul_free (by simp)

end Url
end Yabtorrent
