import Mathlib
import Xv6.Lib.Numeral
import Xv6.Printf

/-!
# `printf` prints numerals and takes one argument a sequence

`printint` prints the numeral of its argument, read with sign when `sign` is set and without
otherwise, and its `buf[20]` is always large enough: the longest numerals are those of `2^64 - 1`
in decimal (twenty digits) and of `-2^63` (nineteen digits and the `-`). `printintSpec` says what
it prints, through `Numeral.numeral`, and a numeral in either table reads back as its number
(`Out.Plain.value_numeral`).

A format string is read as a list of pieces (`fmtPieces`): characters printed as they are and `%`
sequences. Both `printf` and `vprintf` print, for a format string without `NUL` followed by its
`NUL` and anything at all, what `render` makes of its pieces: each sequence that takes an
argument gets the next slot, and the number of slots taken is the number of such sequences.
Neither loop reads past the `NUL`, since the bytes after it make no difference.
-/

namespace Xv6

open Numeral

/-! ## `printint` -/

/-- The digit `d` of the table. -/
def Out.digit (o : Out) (d : Nat) : UInt8 := o.digits.getD d 0

/-- The numeral of an integer: a `-` and the numeral of its magnitude when it is negative. -/
def Out.intNumeral (o : Out) (b : Nat) (v : Int) : List UInt8 :=
  if v < 0 then chr '-' :: numeral o.digit b v.natAbs else numeral o.digit b v.toNat

/-- What `printint(xx, base, sign)` is to print: the numeral of `xx` read in two's complement
when `sign` is set, of `xx` read unsigned otherwise. -/
def Out.printintSpec (o : Out) (b : Nat) (sign : Bool) (xx : Int64) : List UInt8 :=
  if sign then o.intNumeral b xx.toInt else numeral o.digit b xx.toUInt64.toNat

/-- A `printf` whose characters go out as they are, with a table of sixteen different digits. -/
structure Out.Plain (o : Out) : Prop where
  putc_eq : ∀ c, o.putc c = [c]
  digits_length : o.digits.length = 17
  idxOf_digit : ∀ d, d < 16 → o.digits.idxOf (o.digit d) = d

/-- The kernel's digits as bytes. -/
def kdigits : List UInt8 := [48, 49, 50, 51, 52, 53, 54, 55, 56, 57, 97, 98, 99, 100, 101, 102, 0]

/-- The user library's digits as bytes. -/
def udigits : List UInt8 := [48, 49, 50, 51, 52, 53, 54, 55, 56, 57, 65, 66, 67, 68, 69, 70, 0]

theorem byte_ne_backspace (c : UInt8) : c.toUInt32 ≠ BACKSPACE := by
  intro h
  have hlt := c.toNat_lt
  have h' := congrArg UInt32.toNat h
  rw [UInt8.toNat_toUInt32] at h'
  rw [h'] at hlt
  exact absurd hlt (by decide)

theorem kout_plain : kout.Plain where
  putc_eq c := by
    show consputc c.toUInt32 = [c]
    rw [consputc, if_neg (byte_ne_backspace c), UInt8.toUInt8_toUInt32]
  digits_length := rfl
  idxOf_digit := by
    change ∀ d, d < 16 → List.idxOf (List.getD kdigits d 0) kdigits = d
    decide

theorem uout_plain : uout.Plain where
  putc_eq _ := rfl
  digits_length := rfl
  idxOf_digit := by
    change ∀ d, d < 16 → List.idxOf (List.getD udigits d 0) udigits = d
    decide

/-- A numeral in a plain table reads back as its number, each digit by its place in the table. -/
theorem Out.Plain.value_numeral {o : Out} (ho : o.Plain) {b : Nat} (hb : 1 < b ∧ b ≤ 16)
    (n : Nat) : value o.digits.idxOf b (numeral o.digit b n) = n :=
  Numeral.value_numeral hb.1 (fun d hd => ho.idxOf_digit d (by omega)) n

theorem Out.Plain.flatMap_putc {o : Out} (ho : o.Plain) (l : List UInt8) :
    l.flatMap o.putc = l := by
  induction l with
  | nil => rfl
  | cons c l ih => rw [List.flatMap_cons, ho.putc_eq, ih, List.singleton_append]

/-- The loop stores the digits of `x`, least significant first, when they fit in `buf`. -/
theorem digitLoop_eq {digits : List UInt8} {base : UInt64} (hb : 1 < base.toNat)
    (ht : base.toNat ≤ digits.length) (x : UInt64) (buf : List UInt8)
    (hlen : buf.length + (lsd base.toNat x.toNat).length ≤ 20) :
    digitLoop digits base x buf =
      some (buf ++ (lsd base.toNat x.toNat).map (digits.getD · 0)) := by
  have hdig : ∀ {x : UInt64} {d : UInt8}, digits[(x % base).toNat]? = some d →
      digits.getD (x.toNat % base.toNat) 0 = d := fun hd => by
    rw [← UInt64.toNat_mod, List.getD_eq_getElem?_getD, hd, Option.getD_some]
  induction x, buf using digitLoop.induct digits base with
  | case1 x buf hnone =>
    have hlt : (x % base).toNat < digits.length := by
      rw [UInt64.toNat_mod]
      exact lt_of_lt_of_le (Nat.mod_lt _ (by omega)) ht
    rw [List.getElem?_eq_getElem hlt] at hnone
    cases hnone
  | case2 x buf d hd hroom hnext ih =>
    have hq : (x / base).toNat = x.toNat / base.toNat := UInt64.toNat_div x base
    have hle : base.toNat ≤ x.toNat := by
      by_contra hlt
      apply hnext
      rw [← UInt64.toNat_inj, hq, Nat.div_eq_of_lt (by omega)]
      rfl
    have hsplit := lsd_of_le hb hle
    rw [hsplit, List.length_cons] at hlen
    rw [digitLoop, hd]
    simp only [if_pos hroom, if_pos hnext]
    rw [ih (by rw [hq]; simp only [List.length_append, List.length_singleton]; omega), hsplit, hq,
      List.map_cons, hdig hd]
    simp
  | case3 x buf d hd hroom hlast =>
    have hlt : x.toNat < base.toNat := by
      by_contra hle
      apply hlast
      rw [ne_eq, ← UInt64.toNat_inj, UInt64.toNat_div]
      exact (Nat.div_pos (by omega) (by omega)).ne'
    rw [digitLoop, hd]
    simp only [if_pos hroom, if_neg hlast]
    rw [lsd_of_lt hlt, List.map_singleton, ← hdig hd, Nat.mod_eq_of_lt hlt]
  | case4 x buf d hd hfull =>
    have hpos := List.length_pos_of_ne_nil (lsd_ne_nil base.toNat x.toNat)
    omega

theorem length_lsd_le_twenty {b n : Nat} (hb : 10 ≤ b) (hn : n < 2 ^ 64) :
    (lsd b n).length ≤ 20 := by
  apply length_lsd_le (by omega) (by decide)
  calc n < 2 ^ 64 := hn
    _ ≤ 10 ^ 20 := by decide
    _ ≤ b ^ 20 := Nat.pow_le_pow_left hb 20

theorem length_lsd_le_nineteen {b n : Nat} (hb : 10 ≤ b) (hn : n ≤ 2 ^ 63) :
    (lsd b n).length ≤ 19 := by
  apply length_lsd_le (by omega) (by decide)
  calc n ≤ 2 ^ 63 := hn
    _ < 10 ^ 19 := by decide
    _ ≤ b ^ 19 := Nat.pow_le_pow_left hb 19

theorem Int64.toInt_neg_iff {xx : Int64} : xx.toInt < 0 ↔ xx < 0 := by
  rw [Int64.lt_iff_toInt_lt, Int64.toInt_zero]

/-- Negated in two's complement, a negative `xx` is its magnitude, which is at most `2^63`. -/
theorem neg_toUInt64_toNat {xx : Int64} (h : xx < 0) :
    (-xx).toUInt64.toNat = xx.toInt.natAbs ∧ xx.toInt.natAbs ≤ 2 ^ 63 := by
  have hlt : xx.toBitVec.toInt < 0 := by
    rw [Int64.toInt_toBitVec]
    exact Int64.toInt_neg_iff.mpr h
  have hn : xx.toUInt64.toNat = xx.toBitVec.toNat := rfl
  have hlt64 : xx.toBitVec.toNat < 2 ^ 64 := xx.toBitVec.isLt
  rw [Int64.toUInt64_neg, UInt64.toNat_neg, hn, ← Int64.toInt_toBitVec,
    BitVec.toInt_eq_toNat_cond]
  rw [BitVec.toInt_eq_toNat_cond] at hlt
  split_ifs at hlt ⊢ with hc
  · omega
  · simp only [UInt64.size]
    omega

/-- A non-negative `xx` is the same number read with sign and without. -/
theorem toInt_toNat_of_nonneg {xx : Int64} (h : ¬ xx < 0) :
    xx.toInt.toNat = xx.toUInt64.toNat := by
  have hle : ¬ xx.toBitVec.toInt < 0 := by
    rw [Int64.toInt_toBitVec]
    exact fun hc => h (Int64.toInt_neg_iff.mp hc)
  have hn : xx.toUInt64.toNat = xx.toBitVec.toNat := rfl
  rw [hn, ← Int64.toInt_toBitVec, BitVec.toInt_eq_toNat_cond]
  rw [BitVec.toInt_eq_toNat_cond] at hle
  split_ifs at hle ⊢ <;> omega

theorem Out.length_printintSpec_le (o : Out) {b : Nat} (hb : 10 ≤ b) (sign : Bool) (xx : Int64) :
    (o.printintSpec b sign xx).length ≤ 20 := by
  have hlt : xx.toUInt64.toNat < 2 ^ 64 := xx.toUInt64.toNat_lt
  unfold printintSpec intNumeral
  split_ifs with hs hx
  · have habs := (neg_toUInt64_toNat (Int64.toInt_neg_iff.mp hx)).2
    simp only [List.length_cons, length_numeral]
    have := length_lsd_le_nineteen hb habs
    omega
  · rw [length_numeral, toInt_toNat_of_nonneg (fun h => hx (Int64.toInt_neg_iff.mpr h))]
    exact length_lsd_le_twenty hb hlt
  · rw [length_numeral]
    exact length_lsd_le_twenty hb hlt

/-- `printint` prints `printintSpec`, for the bases `printf` passes: no store goes past `buf`
and no digit past the table. -/
theorem Out.Plain.printint_eq {o : Out} (ho : o.Plain) {base : UInt64}
    (hb : 10 ≤ base.toNat ∧ base.toNat ≤ 16) (xx : Int64) (sign : Bool) :
    o.printint xx base sign = some (o.printintSpec base.toNat sign xx) := by
  obtain ⟨hb10, hb16⟩ := hb
  have hb1 : 1 < base.toNat := by omega
  have ht : base.toNat ≤ o.digits.length := by
    rw [ho.digits_length]
    omega
  have hlt : xx.toUInt64.toNat < 2 ^ 64 := xx.toUInt64.toNat_lt
  by_cases hneg : sign = true ∧ xx < 0
  · obtain ⟨rfl, hx⟩ := hneg
    obtain ⟨hval, habs⟩ := neg_toUInt64_toNat hx
    have hlen := length_lsd_le_nineteen hb10 habs
    have hloop := digitLoop_eq hb1 ht (-xx).toUInt64 []
      (by rw [hval, List.length_nil, Nat.zero_add]; omega)
    rw [hval] at hloop
    have hroom : ([] ++ (lsd base.toNat xx.toInt.natAbs).map (o.digits.getD · 0)).length < 20 := by
      simp only [List.nil_append, List.length_map]
      omega
    simp only [Out.printint, hx, decide_true, Bool.and_true, if_true, hloop, Option.bind_eq_bind,
      Option.bind_some, Bool.not_true, Bool.false_eq_true, if_false, if_pos hroom, Option.pure_def]
    rw [ho.flatMap_putc]
    simp only [Out.printintSpec, Out.intNumeral, if_pos (Int64.toInt_neg_iff.mpr hx), if_true,
      numeral, List.nil_append, List.reverse_append, List.reverse_singleton,
      List.singleton_append]
    rfl
  · have hpos : (sign && decide (xx < 0)) = false := by
      cases sign with
      | false => rfl
      | true => simpa using fun h => hneg ⟨rfl, h⟩
    have hspec :
        o.printintSpec base.toNat sign xx = numeral o.digit base.toNat xx.toUInt64.toNat := by
      cases sign with
      | false => rfl
      | true =>
        have hx : ¬ xx < 0 := fun h => hneg ⟨rfl, h⟩
        simp only [Out.printintSpec, Out.intNumeral, if_true,
          if_neg (mt Int64.toInt_neg_iff.mp hx), toInt_toNat_of_nonneg hx]
    have hloop := digitLoop_eq hb1 ht xx.toUInt64 []
      (by rw [List.length_nil, Nat.zero_add]; exact length_lsd_le_twenty hb10 hlt)
    simp only [Out.printint, hpos, Bool.false_eq_true, if_false, hloop, Option.bind_eq_bind,
      Option.bind_some, Bool.not_false, if_true, Option.pure_def]
    rw [ho.flatMap_putc, hspec, List.nil_append]
    rfl

/-! ## The format string -/

/-- A piece of a format string: a character printed as it is, or a `%` sequence. -/
inductive Piece where
  | lit (c : UInt8)
  | seq (cv : Conv)

/-- Whether the piece takes an argument. -/
def Piece.takesArg : Piece → Bool
  | .lit _ => false
  | .seq cv => cv.takesArg

/-- The pieces of a format string given without its `NUL`. A `%` takes the character after it
and, to tell its sequence, the two after that (`NUL` past the end); a `%` that ends the string
is dropped. -/
def fmtPieces : List UInt8 → List Piece
  | [] => []
  | [c] => if c = chr '%' then [] else [.lit c]
  | c :: c0 :: rest =>
    if c = chr '%' then
      let cv := conv c0 (rest.headD 0) ((rest.drop 1).headD 0)
      .seq cv :: fmtPieces (rest.drop cv.skip)
    else .lit c :: fmtPieces (c0 :: rest)
termination_by l => l.length
decreasing_by
  all_goals simp only [List.length_drop, List.length_cons]
  all_goals omega

/-- What a sequence prints for the slot `a`: an integer conversion the numeral of the slot's
low half or of all of it, read with sign or without; `%p` the pointer; `%c` the character;
`%s` the string at the slot's address, or `(null)`. -/
def Out.convSpec (o : Out) (strs : UInt64 → List UInt8) (cv : Conv) (a : UInt64) : List UInt8 :=
  match cv with
  | .d => o.intNumeral 10 a.toUInt32.toInt32.toInt
  | .ld | .lld => o.intNumeral 10 a.toInt64.toInt
  | .u => numeral o.digit 10 a.toUInt32.toNat
  | .lu | .llu => numeral o.digit 10 a.toNat
  | .x => numeral o.digit 16 a.toUInt32.toNat
  | .lx | .llx => numeral o.digit 16 a.toNat
  | .p => o.printptr a
  | .c => o.putArgc a
  | .s => if a = 0 then nullStr else strs a
  | .percent => [chr '%']
  | .unknown c0 => [chr '%', c0]

/-- What the pieces print from slot `k` on, each sequence that takes an argument taking the next
slot, and the slot after the last one taken. -/
def Out.render (o : Out) (strs : UInt64 → List UInt8) (args : Nat → UInt64) :
    List Piece → Nat → List UInt8 × Nat
  | [], k => ([], k)
  | .lit c :: ps, k =>
    let r := o.render strs args ps k
    (c :: r.1, r.2)
  | .seq cv :: ps, k =>
    let r := o.render strs args ps (if cv.takesArg then k + 1 else k)
    (o.convSpec strs cv (args k) ++ r.1, r.2)

theorem Out.render_snd (o : Out) (strs : UInt64 → List UInt8) (args : Nat → UInt64)
    (ps : List Piece) (k : Nat) :
    (o.render strs args ps k).2 = k + ps.countP Piece.takesArg := by
  induction ps generalizing k with
  | nil => rfl
  | cons p ps ih =>
    cases p with
    | lit c =>
      simp only [Out.render, ih, List.countP_cons, Piece.takesArg]
      rfl
    | seq cv =>
      by_cases h : cv.takesArg = true
      · simp only [Out.render, ih, List.countP_cons, Piece.takesArg, h, if_true]
        omega
      · simp only [Out.render, ih, List.countP_cons, Piece.takesArg, h, Bool.false_eq_true,
          if_false]
        omega

theorem Out.Plain.convOut_eq {o : Out} (ho : o.Plain) (strs : UInt64 → List UInt8) (cv : Conv)
    (a : UInt64) : o.convOut strs cv a = some (o.convSpec strs cv a) := by
  have h10 : 10 ≤ (10 : UInt64).toNat ∧ (10 : UInt64).toNat ≤ 16 := by decide
  have h16 : 10 ≤ (16 : UInt64).toNat ∧ (16 : UInt64).toNat ≤ 16 := by decide
  cases cv <;> simp only [Out.convOut, Out.convSpec, ho.printint_eq h10, ho.printint_eq h16,
    Out.printintSpec, if_true, Bool.false_eq_true, if_false, Int32.toInt_toInt64,
    UInt64.toUInt64_toInt64, UInt32.toNat_toUInt64, ho.flatMap_putc, ho.putc_eq]
  all_goals rfl

/-! ## Reading the format string -/

section Reading

variable {fmt l junk : List UInt8} {i : Nat}

theorem getElem?_of_drop (hd : fmt.drop i = l) (j : Nat) : fmt[i + j]? = l[j]? := by
  rw [← hd, List.getElem?_drop]

theorem drop_of_drop (hd : fmt.drop i = l) (j : Nat) : fmt.drop (i + j) = l.drop j := by
  rw [← hd, List.drop_drop]

theorem getElem_of_drop {c : UInt8} (hd : fmt.drop i = c :: l) :
    ∃ h : i < fmt.length, fmt[i] = c := by
  have h0 := getElem?_of_drop hd 0
  rw [Nat.add_zero] at h0
  exact List.getElem?_eq_some_iff.mp h0

/-- The character after a sequence's `c0`, or the `NUL`. -/
theorem getElem?_zero_append (rest : List UInt8) :
    (rest ++ 0 :: junk)[0]? = some (rest.headD 0) := by
  cases rest <;> rfl

/-- The second character after `c0`, read only when the first is not `NUL`. -/
theorem read_c2 {rest : List UInt8} (hnul : 0 ∉ rest) :
    (if rest.headD 0 ≠ 0 then (rest ++ 0 :: junk)[1]? else pure 0) =
      some ((rest.drop 1).headD 0) := by
  cases rest with
  | nil => rfl
  | cons r rest =>
    have hr : r ≠ 0 := fun h => hnul (h ▸ List.mem_cons_self)
    simp only [List.headD_cons, ne_eq, hr, not_false_eq_true, if_true, List.cons_append,
      List.drop_succ_cons, List.drop_zero]
    exact getElem?_zero_append rest

/-- `read_c2` under the rest of the loop, which `do` places in both branches. -/
theorem read_c2_bind {β : Type} {rest : List UInt8} (hnul : 0 ∉ rest) (K : UInt8 → Option β) :
    (if rest.headD 0 ≠ 0 then (rest ++ 0 :: junk)[1]?.bind K
      else (pure 0 : Option UInt8).bind K) =
      K ((rest.drop 1).headD 0) := by
  rw [← apply_ite (fun o => Option.bind o K), read_c2 hnul, Option.bind_some]

theorem Conv.skip_unknown (c0 : UInt8) : (Conv.unknown c0).skip = 0 := rfl

theorem ite_le_of_le {p : Prop} [Decidable p] {a b k : Nat} (ha : a ≤ k) (hb : b ≤ k) :
    (if p then a else b) ≤ k := by
  split
  · exact ha
  · exact hb

/-- With `c1` the `NUL`, no sequence steps past `c0`. -/
theorem conv_zero_skip (c0 c2 : UInt8) : (conv c0 0 c2).skip = 0 := by
  have hd : ((0 : UInt8) = chr 'd') = False := by decide
  have hu : ((0 : UInt8) = chr 'u') = False := by decide
  have hx : ((0 : UInt8) = chr 'x') = False := by decide
  have hl : ((0 : UInt8) = chr 'l') = False := by decide
  apply Nat.le_zero.mp
  simp only [conv, hd, hu, hx, hl, and_false, false_and, if_false, apply_ite Conv.skip,
    Conv.skip_unknown]
  repeat' apply ite_le_of_le
  all_goals decide

/-- With `c2` the `NUL`, no sequence steps past `c1`. -/
theorem conv_skip_le_one (c0 c1 : UInt8) : (conv c0 c1 0).skip ≤ 1 := by
  have hd : ((0 : UInt8) = chr 'd') = False := by decide
  have hu : ((0 : UInt8) = chr 'u') = False := by decide
  have hx : ((0 : UInt8) = chr 'x') = False := by decide
  simp only [conv, hd, hu, hx, and_false, if_false, apply_ite Conv.skip, Conv.skip_unknown]
  repeat' apply ite_le_of_le
  all_goals decide

theorem Conv.skip_le_two (cv : Conv) : cv.skip ≤ 2 := by
  unfold Conv.skip
  split <;> omega

/-- A sequence steps only over characters before the `NUL`. -/
theorem conv_skip_le {rest : List UInt8} (hnul : 0 ∉ rest) (c0 : UInt8) :
    (conv c0 (rest.headD 0) ((rest.drop 1).headD 0)).skip ≤ rest.length := by
  match rest with
  | [] => exact (conv_zero_skip c0 0).le
  | [r] => exact conv_skip_le_one c0 r
  | _ :: _ :: rest =>
    exact le_trans (Conv.skip_le_two _) (by simp only [List.length_cons]; omega)

end Reading

/-! ## The loops -/

theorem pct_ne_zero : (chr '%' = 0) = False := by
  decide

section Loops

variable (strs : UInt64 → List UInt8) (args : Nat → UInt64) {fmt junk : List UInt8}

theorem printfLoop_nul {i : Nat} (hd : fmt.drop i = 0 :: junk) (k : Nat) :
    printfLoop strs args fmt i k = some ([], k) := by
  obtain ⟨hi, hc⟩ := getElem_of_drop hd
  rw [printfLoop, dif_pos hi]
  simp only [hc, if_true]

/-- From a character `i` where the format string still holds `rest` and then its `NUL`, the
kernel's loop prints what `rest`'s pieces print. -/
theorem printfLoop_eq (rest : List UInt8) (hnul : 0 ∉ rest) {i : Nat}
    (hd : fmt.drop i = rest ++ 0 :: junk) (k : Nat) :
    printfLoop strs args fmt i k = some (kout.render strs args (fmtPieces rest) k) := by
  induction rest using fmtPieces.induct generalizing i k with
  | case1 =>
    rw [printfLoop_nul strs args hd, fmtPieces]
    rfl
  | case2 =>
    rw [List.singleton_append] at hd
    obtain ⟨hi, hget⟩ := getElem_of_drop hd
    have h1 : fmt[i + 1]? = some 0 := getElem?_of_drop hd 1
    rw [printfLoop, dif_pos hi]
    simp only [hget, pct_ne_zero, if_false, ne_eq, not_true_eq_false, h1, Option.bind_eq_bind,
      Option.bind_some, Option.pure_def, if_true]
    rw [fmtPieces, if_pos rfl]
    rfl
  | case3 c hc =>
    rw [List.singleton_append] at hd
    have hc0 : c ≠ 0 := fun h => hnul (List.mem_singleton.mpr h.symm)
    obtain ⟨hi, hget⟩ := getElem_of_drop hd
    have hnext := printfLoop_nul strs args (drop_of_drop hd 1) k
    rw [printfLoop, dif_pos hi]
    simp only [hget, hc0, if_false, ne_eq, hc, not_false_eq_true, if_true, hnext, prepend,
      Option.map_some, kout_plain.putc_eq]
    rw [fmtPieces, if_neg hc]
    rfl
  | case4 c0 rest cv ih =>
    rw [List.cons_append, List.cons_append] at hd
    have hc0 : c0 ≠ 0 := fun h =>
      hnul (List.mem_cons_of_mem _ (List.mem_cons.mpr (Or.inl h.symm)))
    have hrest : 0 ∉ rest := fun h => hnul (List.mem_cons_of_mem _ (List.mem_cons_of_mem _ h))
    obtain ⟨hi, hget⟩ := getElem_of_drop hd
    have h1 : fmt[i + 1]? = some c0 := getElem?_of_drop hd 1
    have h2 : fmt[i + 2]? = some (rest.headD 0) :=
      (getElem?_of_drop hd 2).trans (getElem?_zero_append rest)
    have h3 : fmt[i + 3]? = (rest ++ 0 :: junk)[1]? := getElem?_of_drop hd 3
    have hskip : cv.skip ≤ rest.length := conv_skip_le hrest c0
    have hd' : fmt.drop (i + 2 + cv.skip) = rest.drop cv.skip ++ 0 :: junk := by
      rw [Nat.add_assoc, drop_of_drop hd, show 2 + cv.skip = cv.skip + 1 + 1 by omega,
        List.drop_succ_cons, List.drop_succ_cons, List.drop_append_of_le_length hskip]
    have htail : 0 ∉ rest.drop cv.skip := fun h => hrest (List.mem_of_mem_drop h)
    rw [printfLoop, dif_pos hi]
    simp only [hget, pct_ne_zero, if_false, ne_self_iff_false, h1, Option.bind_eq_bind,
      Option.bind_some, if_pos hc0, h2, h3, if_neg hc0]
    rw [read_c2_bind hrest, kout_plain.convOut_eq, Option.bind_some, ih htail hd', Option.bind_some,
      fmtPieces, if_pos rfl]
    rfl
  | case5 c c0 rest hc ih =>
    rw [List.cons_append] at hd
    have hc' : c ≠ 0 := fun h => hnul (List.mem_cons.mpr (Or.inl h.symm))
    have htail : 0 ∉ c0 :: rest := fun h => hnul (List.mem_cons_of_mem c h)
    obtain ⟨hi, hget⟩ := getElem_of_drop hd
    rw [printfLoop, dif_pos hi]
    simp only [hget, hc', if_false, ne_eq, hc, not_false_eq_true, if_true,
      ih htail (drop_of_drop hd 1), prepend, Option.map_some, kout_plain.putc_eq]
    rw [fmtPieces, if_neg hc]
    rfl

theorem vprintfLoop_nul {i : Nat} (hd : fmt.drop i = 0 :: junk) (pct : Bool) (k : Nat) :
    Uprintf.vprintfLoop strs args fmt pct i k = some ([], k) := by
  obtain ⟨hi, hc⟩ := getElem_of_drop hd
  rw [Uprintf.vprintfLoop, dif_pos hi]
  simp only [hc, if_true]

/-- The user library's loop, in state `0` where the format string still holds `rest` and then
its `NUL`, prints what `rest`'s pieces print: a `%` moves it to state `'%'` for one round. -/
theorem vprintfLoop_eq (rest : List UInt8) (hnul : 0 ∉ rest) {i : Nat}
    (hd : fmt.drop i = rest ++ 0 :: junk) (k : Nat) :
    Uprintf.vprintfLoop strs args fmt false i k =
      some (uout.render strs args (fmtPieces rest) k) := by
  induction rest using fmtPieces.induct generalizing i k with
  | case1 =>
    rw [vprintfLoop_nul strs args hd, fmtPieces]
    rfl
  | case2 =>
    rw [List.singleton_append] at hd
    obtain ⟨hi, hget⟩ := getElem_of_drop hd
    rw [Uprintf.vprintfLoop, dif_pos hi]
    simp only [hget, pct_ne_zero, if_false, Bool.not_false, if_true,
      vprintfLoop_nul strs args (drop_of_drop hd 1)]
    rw [fmtPieces, if_pos rfl]
    rfl
  | case3 c hc =>
    rw [List.singleton_append] at hd
    have hc0 : c ≠ 0 := fun h => hnul (List.mem_singleton.mpr h.symm)
    obtain ⟨hi, hget⟩ := getElem_of_drop hd
    rw [Uprintf.vprintfLoop, dif_pos hi]
    simp only [hget, hc0, if_false, Bool.not_false, if_true, hc,
      vprintfLoop_nul strs args (drop_of_drop hd 1), prepend, Option.map_some, uout_plain.putc_eq]
    rw [fmtPieces, if_neg hc]
    rfl
  | case4 c0 rest cv ih =>
    rw [List.cons_append, List.cons_append] at hd
    have hc0 : c0 ≠ 0 := fun h =>
      hnul (List.mem_cons_of_mem _ (List.mem_cons.mpr (Or.inl h.symm)))
    have hrest : 0 ∉ rest := fun h => hnul (List.mem_cons_of_mem _ (List.mem_cons_of_mem _ h))
    have htail : 0 ∉ rest.drop cv.skip := fun h => hrest (List.mem_of_mem_drop h)
    have hd1 : fmt.drop (i + 1) = c0 :: (rest ++ 0 :: junk) := drop_of_drop hd 1
    obtain ⟨hi, hget⟩ := getElem_of_drop hd
    obtain ⟨hi1, hget1⟩ := getElem_of_drop hd1
    have h2 : fmt[i + 1 + 1]? = some (rest.headD 0) :=
      (getElem?_of_drop hd1 1).trans (getElem?_zero_append rest)
    have h3 : fmt[i + 1 + 2]? = (rest ++ 0 :: junk)[1]? := getElem?_of_drop hd1 2
    have hskip : cv.skip ≤ rest.length := conv_skip_le hrest c0
    have hd' : fmt.drop (i + 1 + 1 + cv.skip) = rest.drop cv.skip ++ 0 :: junk := by
      rw [Nat.add_assoc, drop_of_drop hd1, show 1 + cv.skip = cv.skip + 1 by omega,
        List.drop_succ_cons, List.drop_append_of_le_length hskip]
    rw [Uprintf.vprintfLoop, dif_pos hi]
    simp only [hget, pct_ne_zero, if_false, Bool.not_false, if_true]
    rw [Uprintf.vprintfLoop, dif_pos hi1]
    simp only [hget1, if_neg hc0, Bool.not_true, Bool.false_eq_true, if_false,
      Option.bind_eq_bind, if_pos hc0, h2, Option.bind_some, h3]
    rw [read_c2_bind hrest, uout_plain.convOut_eq, Option.bind_some, ih htail hd',
      Option.bind_some, fmtPieces, if_pos rfl]
    rfl
  | case5 c c0 rest hc ih =>
    rw [List.cons_append] at hd
    have hc' : c ≠ 0 := fun h => hnul (List.mem_cons.mpr (Or.inl h.symm))
    have htail : 0 ∉ c0 :: rest := fun h => hnul (List.mem_cons_of_mem c h)
    obtain ⟨hi, hget⟩ := getElem_of_drop hd
    rw [Uprintf.vprintfLoop, dif_pos hi]
    simp only [hget, hc', if_false, Bool.not_false, if_true, hc,
      ih htail (drop_of_drop hd 1), prepend, Option.map_some, uout_plain.putc_eq]
    rw [fmtPieces, if_neg hc]
    rfl

end Loops

theorem printf_formats :
    (∀ (xx : Int64) (base : UInt64) (sign : Bool), (base = 10 ∨ base = 16) →
      printint xx base sign = some (kout.printintSpec base.toNat sign xx) ∧
      Uprintf.printint xx base sign = some (uout.printintSpec base.toNat sign xx) ∧
      (kout.printintSpec base.toNat sign xx).length ≤ 20 ∧
      (uout.printintSpec base.toNat sign xx).length ≤ 20) ∧
    (∀ (strs : UInt64 → List UInt8) (args : Nat → UInt64) (s junk : List UInt8), 0 ∉ s →
      printf strs args (s ++ 0 :: junk) = some (kout.render strs args (fmtPieces s) 0) ∧
      Uprintf.vprintf strs args (s ++ 0 :: junk) = some (uout.render strs args (fmtPieces s) 0) ∧
      (kout.render strs args (fmtPieces s) 0).2 = (fmtPieces s).countP Piece.takesArg ∧
      (uout.render strs args (fmtPieces s) 0).2 = (fmtPieces s).countP Piece.takesArg) := by
  constructor
  · intro xx base sign hb
    have hb' : 10 ≤ base.toNat ∧ base.toNat ≤ 16 := by
      rcases hb with rfl | rfl <;> decide
    exact ⟨kout_plain.printint_eq hb' xx sign, uout_plain.printint_eq hb' xx sign,
      kout.length_printintSpec_le hb'.1 sign xx, uout.length_printintSpec_le hb'.1 sign xx⟩
  · intro strs args s junk hnul
    refine ⟨printfLoop_eq strs args s hnul rfl 0, vprintfLoop_eq strs args s hnul rfl 0, ?_, ?_⟩
    · rw [Out.render_snd, Nat.zero_add]
    · rw [Out.render_snd, Nat.zero_add]

theorem printf_formats_extremes :
    printint (-9223372036854775808) 10 true = some (chr '-' :: numeral kout.digit 10 (2 ^ 63)) ∧
      Uprintf.printint (-1) 10 false = some (numeral uout.digit 10 (2 ^ 64 - 1)) ∧
      printf (fun _ => []) (fun _ => 0) ([chr '%', chr 'l', chr 'u', chr '%'] ++ [0]) =
        some (kout.render (fun _ => []) (fun _ => 0)
          (fmtPieces [chr '%', chr 'l', chr 'u', chr '%']) 0) := by
  refine ⟨?_, ?_, (printf_formats.2 _ _ _ [] (by decide)).1⟩
  · rw [(printf_formats.1 _ 10 true (Or.inl rfl)).1]
    simp only [Out.printintSpec, Out.intNumeral, if_true]
    rw [if_pos (by decide), show (-9223372036854775808 : Int64).toInt.natAbs = 2 ^ 63 by decide]
    rfl
  · rw [(printf_formats.1 _ 10 false (Or.inl rfl)).2.1]
    simp only [Out.printintSpec, Bool.false_eq_true, if_false]
    rw [show (-1 : Int64).toUInt64.toNat = 2 ^ 64 - 1 by decide]
    rfl

end Xv6
