import Xv6.Console

/-!
# `printf` (`kernel/printf.c`, `user/printf.c`)

The kernel's `printf` and the user library's `vprintf`, with their `printint` and `printptr`.
Both know the same `%` sequences and read at most two characters past the one after a `%`,
each only when the one before it is not `NUL`. They differ in their digit tables, in how a
character goes out (the kernel's through `consputc`, the user library's by a `write` of one
byte: `Out`), and in their loops: the kernel steps over a `%` before it reads what follows, the
user library keeps a state.

The format string is the region of memory from `fmt` to its `NUL`, and reading `fmt[i]` past the
end of the region gives `none`: a run that returns read nothing outside it. Each variadic
argument takes one 8-byte slot (`args k` is the `k`-th), `va_arg` of a narrower type reads the
low bytes of its slot, and a run returns the number of slots it took. A string argument is read
through `strs`, the characters at each address before their `NUL`. `buf[20]` of `printint` is a
list, and a store past its end gives `none`. The kernel's `pr.lock` and the user library's `fd`
change nothing that is printed and are left out.
-/

namespace Xv6

/-- A `%` sequence, one for each test of the `if`-`else` chain after a `%`. -/
inductive Conv where
  | d | ld | lld | u | lu | llu | x | lx | llx | p | c | s | percent
  /-- Any other character after the `%`, printed with it. -/
  | unknown (c0 : UInt8)
  deriving DecidableEq, Repr

/-- The `%` sequence that `c0`, `c1`, `c2` begin, tested in the order of `printf`. -/
def conv (c0 c1 c2 : UInt8) : Conv :=
  if c0 = chr 'd' then .d
  else if c0 = chr 'l' ∧ c1 = chr 'd' then .ld
  else if c0 = chr 'l' ∧ c1 = chr 'l' ∧ c2 = chr 'd' then .lld
  else if c0 = chr 'u' then .u
  else if c0 = chr 'l' ∧ c1 = chr 'u' then .lu
  else if c0 = chr 'l' ∧ c1 = chr 'l' ∧ c2 = chr 'u' then .llu
  else if c0 = chr 'x' then .x
  else if c0 = chr 'l' ∧ c1 = chr 'x' then .lx
  else if c0 = chr 'l' ∧ c1 = chr 'l' ∧ c2 = chr 'x' then .llx
  else if c0 = chr 'p' then .p
  else if c0 = chr 'c' then .c
  else if c0 = chr 's' then .s
  else if c0 = chr '%' then .percent
  else .unknown c0

/-- The characters of a sequence past `c0`: its `i += 1` or `i += 2`. -/
def Conv.skip : Conv → Nat
  | .ld | .lu | .lx => 1
  | .lld | .llu | .llx => 2
  | _ => 0

/-- Whether the sequence takes an argument with `va_arg`. -/
def Conv.takesArg : Conv → Bool
  | .percent | .unknown _ => false
  | _ => true

/-- `BACKSPACE` of `kernel/console.c`. -/
def BACKSPACE : UInt32 := 0x100

/-- `consputc(c)` as the UART receives it, for the bits of the `int` `c`: `BACKSPACE` becomes
`\b \b`, and `uartputc_sync` stores any other `c` in the 8-bit transmit register. -/
def consputc (c : UInt32) : List UInt8 :=
  if c = BACKSPACE then [chr '\x08', chr ' ', chr '\x08'] else [c.toUInt8]

/-- How one `printf` prints: its table `digits`, how a character goes out, and how `%c` prints
the bits of its slot. -/
structure Out where
  /-- The digit table, with the `NUL` that ends its string. -/
  digits : List UInt8
  /-- What one character printed becomes. -/
  putc : UInt8 → List UInt8
  /-- What `%c` prints for its argument's slot. -/
  putArgc : UInt64 → List UInt8

/-- The kernel's: `"0123456789abcdef"`, and `consputc` of a character or of `va_arg(ap, uint)`. -/
def kout : Out where
  digits := "0123456789abcdef".toList.map chr ++ [0]
  putc c := consputc c.toUInt32
  putArgc a := consputc a.toUInt32

/-- The user library's: `"0123456789ABCDEF"`, and `putc(fd, c)`, which writes the `char` `c`. -/
def uout : Out where
  digits := "0123456789ABCDEF".toList.map chr ++ [0]
  putc c := [c]
  putArgc a := [a.toUInt8]

/-- The `do`-`while` of `printint`: `buf[i++] = digits[x % base]` until `x /= base` leaves
`0`. A digit past the end of the table, or a store past the end of `char buf[20]`, gives
`none`. -/
def digitLoop (digits : List UInt8) (base x : UInt64) (buf : List UInt8) : Option (List UInt8) :=
  match digits[(x % base).toNat]? with
  | none => none
  | some d =>
    if buf.length < 20 then
      if x / base ≠ 0 then digitLoop digits base (x / base) (buf ++ [d]) else some (buf ++ [d])
    else none
termination_by 20 - buf.length
decreasing_by
  simp only [List.length_append, List.length_singleton]
  omega

/-- `printint(xx, base, sign)` with the table `o.digits`: what `while(--i >= 0)` prints of
`buf`. A negative `xx` is negated in 64-bit two's complement, as the machine does. -/
def Out.printint (o : Out) (xx : Int64) (base : UInt64) (sign : Bool) : Option (List UInt8) := do
  let neg := sign && decide (xx < 0)
  let x : UInt64 := if neg then (-xx).toUInt64 else xx.toUInt64
  let buf ← digitLoop o.digits base x []
  let buf ← if !neg then pure buf else if buf.length < 20 then pure (buf ++ [chr '-']) else none
  pure (buf.reverse.flatMap o.putc)

/-- The loop of `printptr`: with `n` rounds left, the digit of the top four bits, then
`x <<= 4`. -/
def ptrLoop (digits : List UInt8) : Nat → UInt64 → List UInt8
  | 0, _ => []
  | n + 1, x => digits.getD (x >>> 60).toNat 0 :: ptrLoop digits n (x <<< 4)

/-- `printptr(x)`: `0x` and the sixteen hexadecimal digits of `x`. -/
def Out.printptr (o : Out) (x : UInt64) : List UInt8 :=
  ([chr '0', chr 'x'] ++ ptrLoop o.digits 16 x).flatMap o.putc

/-- `"(null)"`, printed for a null `%s` argument. -/
def nullStr : List UInt8 := "(null)".toList.map chr

/-- What a `%` sequence prints, with `a` the slot `va_arg` reads if it takes one: `int` and
`uint32` are its low half, widened to `long long` with and without sign. -/
def Out.convOut (o : Out) (strs : UInt64 → List UInt8) (cv : Conv) (a : UInt64) :
    Option (List UInt8) :=
  match cv with
  | .d => o.printint a.toUInt32.toInt32.toInt64 10 true
  | .ld | .lld => o.printint a.toInt64 10 true
  | .u => o.printint a.toUInt32.toUInt64.toInt64 10 false
  | .lu | .llu => o.printint a.toInt64 10 false
  | .x => o.printint a.toUInt32.toUInt64.toInt64 16 false
  | .lx | .llx => o.printint a.toInt64 16 false
  | .p => some (o.printptr a)
  | .c => some (o.putArgc a)
  | .s => some ((if a = 0 then nullStr else strs a).flatMap o.putc)
  | .percent => some (o.putc (chr '%'))
  | .unknown c0 => some (o.putc (chr '%') ++ o.putc c0)

/-- `o` printed before what a run prints. -/
def prepend (o : List UInt8) (r : Option (List UInt8 × Nat)) : Option (List UInt8 × Nat) :=
  r.map fun r => (o ++ r.1, r.2)

/-- `printint` of `kernel/printf.c`. -/
def printint (xx : Int64) (base : UInt64) (sign : Bool) : Option (List UInt8) :=
  kout.printint xx base sign

/-- `printptr` of `kernel/printf.c`. -/
def printptr (x : UInt64) : List UInt8 := kout.printptr x

/-- The loop of the kernel's `printf` from `fmt[i]`, with `k` slots taken: what it prints and
the slots taken when it ends. After a `%` it moves `i` to `c0` and stops if that is `NUL`. -/
def printfLoop (strs : UInt64 → List UInt8) (args : Nat → UInt64) (fmt : List UInt8)
    (i k : Nat) : Option (List UInt8 × Nat) :=
  if h : i < fmt.length then
    let cx := fmt[i]
    if cx = 0 then some ([], k)
    else if cx ≠ chr '%' then prepend (kout.putc cx) (printfLoop strs args fmt (i + 1) k)
    else do
      let c0 ← fmt[i + 1]?
      let c1 ← if c0 ≠ 0 then fmt[i + 2]? else pure 0
      let c2 ← if c1 ≠ 0 then fmt[i + 3]? else pure 0
      if c0 = 0 then pure ([], k)
      else
        let cv := conv c0 c1 c2
        let out ← kout.convOut strs cv (args k)
        let r ← printfLoop strs args fmt (i + 2 + cv.skip) (if cv.takesArg then k + 1 else k)
        pure (out ++ r.1, r.2)
  else none
termination_by fmt.length - i

/-- `printf(fmt, ...)` of the kernel. -/
def printf (strs : UInt64 → List UInt8) (args : Nat → UInt64) (fmt : List UInt8) :
    Option (List UInt8 × Nat) :=
  printfLoop strs args fmt 0 0

namespace Uprintf

/-- `printint(fd, xx, base, sgn)` of `user/printf.c`. -/
def printint (xx : Int64) (base : UInt64) (sgn : Bool) : Option (List UInt8) :=
  uout.printint xx base sgn

/-- `printptr(fd, x)` of `user/printf.c`. -/
def printptr (x : UInt64) : List UInt8 := uout.printptr x

/-- The loop of `vprintf` from `fmt[i]`, in state `'%'` when `pct`, with `k` slots taken. A `%`
only changes the state; the sequence is read at the next round, whose `c0` is not `NUL`. -/
def vprintfLoop (strs : UInt64 → List UInt8) (args : Nat → UInt64) (fmt : List UInt8)
    (pct : Bool) (i k : Nat) : Option (List UInt8 × Nat) :=
  if h : i < fmt.length then
    let c0 := fmt[i]
    if c0 = 0 then some ([], k)
    else if !pct then
      if c0 = chr '%' then vprintfLoop strs args fmt true (i + 1) k
      else prepend (uout.putc c0) (vprintfLoop strs args fmt false (i + 1) k)
    else do
      let c1 ← if c0 ≠ 0 then fmt[i + 1]? else pure 0
      let c2 ← if c1 ≠ 0 then fmt[i + 2]? else pure 0
      let cv := conv c0 c1 c2
      let out ← uout.convOut strs cv (args k)
      let r ← vprintfLoop strs args fmt false (i + 1 + cv.skip)
        (if cv.takesArg then k + 1 else k)
      pure (out ++ r.1, r.2)
  else none
termination_by fmt.length - i

/-- `vprintf(fd, fmt, ap)`. -/
def vprintf (strs : UInt64 → List UInt8) (args : Nat → UInt64) (fmt : List UInt8) :
    Option (List UInt8 × Nat) :=
  vprintfLoop strs args fmt false 0 0

end Uprintf

end Xv6
