import Mathlib
import Xv6.Lib.BufferProgram

/-!
# DNS Replies

`decode_qname` and `dns_rep` of `user/dns.c`, as programs on the buffer that the reply has been
received into. A `char` is a byte from 0 to 255 on RISC-V, and positions are offsets into the
buffer; the buffer has contents from `cc` on as well, which the code has not received.

The model follows the code up to the first access from `cc` on, before which no `int` can
overflow. Loops without a count get as many turns as there are bytes received.
-/

namespace Xv6.User.Dns

open Xv6.Lib
open Xv6.Lib.BufferProgram

/-- The contents of the receive buffer and of what lies behind it -/
abbrev Buffer := ℕ → UInt8

/-- What `dns_rep` prints before it calls `exit(1)`, or that a loop has not come to its end -/
inductive Exit where
  | tooShort
  | notReply
  | wrongId
  | rcode
  | invalidReply
  | ednsName
  | ednsType
  | processed (len : ℕ)
  | noArecord
  | hang
  deriving DecidableEq

abbrev Prog := BufferProgram UInt8 Exit

/-! ## Names -/

/-- The inner loop of `decode_qname`: `l` bytes move down by one. -/
def decodeLabel : ℕ → ℕ → Prog Unit
  | 0, _ => pure ()
  | l + 1, qn => do
    let c ← read (qn + 1)
    write qn c
    decodeLabel l (qn + 1)

/-- `'.'` -/
def dot : UInt8 := 46

/-- The outer loop of `decode_qname` -/
def decodeFrom (qnMax : ℕ) : ℕ → ℕ → Prog Unit
  | 0, _ => giveUp .hang
  | turns + 1, qn =>
    if qn ≥ qnMax then giveUp .invalidReply
    else do
      let l ← read qn
      if l = 0 then pure ()
      else do
        decodeLabel l.toNat qn
        write (qn + l.toNat) dot
        decodeFrom qnMax turns (qn + l.toNat + 1)

/-- `decode_qname(ibuf + qn, cc - qn)`; `qn + max` is `cc`, also where `max` is negative. -/
def decodeQname (cc qn : ℕ) : Prog Unit := decodeFrom cc (cc + 1) qn

/-- `strlen(ibuf + s)` -/
def strlenFrom : ℕ → ℕ → Prog ℕ
  | 0, _ => giveUp .hang
  | turns + 1, s => do
    let c ← read s
    if c = 0 then pure 0
    else do
      let n ← strlenFrom turns (s + 1)
      pure (n + 1)

def strlen (cc s : ℕ) : Prog ℕ := strlenFrom cc s

/-- `decode_qname` and `len += strlen(qn)+1` -/
def plainName (cc len : ℕ) : Prog ℕ := do
  decodeQname cc len
  let n ← strlen cc len
  pure (len + n + 1)

/-! ## Fields -/

/-- `ntohs` of the field at `i` -/
def ntohs (i : ℕ) : Prog ℕ := do
  let hi ← read i
  let lo ← read (i + 1)
  pure (hi.toNat * 256 + lo.toNat)

/-- `sizeof(struct dns)` -/
def sizeofDns : ℕ := 12

/-- `sizeof(struct dns_question)` -/
def sizeofQuestion : ℕ := 4

/-- `sizeof(struct dns_data)`; the type is at offset 0 and the length at offset 8. -/
def sizeofData : ℕ := 10

def ARECORD : ℕ := 1
def CNAME : ℕ := 5

/-! ## `dns_rep` -/

/-- The loop over the questions: `len` and `qname` behind it -/
def questions (cc : ℕ) : ℕ → ℕ → Option ℕ → Prog (ℕ × Option ℕ)
  | 0, len, qname => pure (len, qname)
  | n + 1, len, _ => do
    let next ← plainName cc len
    questions cc n (next + sizeofQuestion) (some len)

/-- The name of an answer; the pointer of a compressed one is read, but not followed. -/
def answerName (cc len : ℕ) : Prog ℕ := do
  let c ← read len
  if c.toNat > 63 then do
    let _ ← read (len + 1)
    pure (len + 2)
  else plainName cc len

/-- `printf` of `qname` -/
def printName (cc : ℕ) : Option ℕ → Prog Unit
  | none => pure ()
  | some qname => do
    let _ ← strlen cc qname
    pure ()

/-- The record behind the name: where the next one begins, and the address of an A record -/
def answerData (cc : ℕ) (qname : Option ℕ) (d : ℕ) : Prog (ℕ × Option ℕ) := do
  let type ← ntohs d
  if type = ARECORD then do
    let dlen ← ntohs (d + 8)
    if dlen = 4 then do
      printName cc qname
      let _ ← read (d + sizeofData)
      let _ ← read (d + sizeofData + 1)
      let _ ← read (d + sizeofData + 2)
      let _ ← read (d + sizeofData + 3)
      pure (d + sizeofData + 4, some (d + sizeofData))
    else pure (d + sizeofData, none)
  else if type = CNAME then do
    let dlen ← ntohs (d + 8)
    pure (d + sizeofData + dlen, none)
  else pure (d + sizeofData, none)

/-- The loop over the answers, with `res` so far -/
def answers (cc : ℕ) (qname : Option ℕ) : ℕ → ℕ → Option ℕ → Prog (ℕ × Option ℕ)
  | 0, len, res => pure (len, res)
  | n + 1, len, res =>
    if len ≥ cc then giveUp .invalidReply
    else do
      let d ← answerName cc len
      let (next, ip) ← answerData cc qname d
      answers cc qname n next (ip <|> res)

/-- The loop over the additional records -/
def additionals : ℕ → ℕ → Prog ℕ
  | 0, len => pure len
  | n + 1, len => do
    let c ← read len
    if c ≠ 0 then giveUp .ednsName
    else do
      let type ← ntohs (len + 1)
      if type ≠ 41 then giveUp .ednsType
      else do
        let dlen ← ntohs (len + 1 + 8)
        additionals n (len + 1 + sizeofData + dlen)

/-- `dns_rep(ibuf, cc)`, which returns an offset. The counts of the header are read once: what is
    written lies behind the header. -/
def dnsRep (cc : ℕ) : Prog ℕ :=
  if cc < sizeofDns then giveUp .tooShort
  else do
    let flags ← read 2
    if flags.toNat.testBit 7 = false then giveUp .notReply
    else do
      let id ← ntohs 0
      if id ≠ 6828 then giveUp .wrongId
      else do
        let codes ← read 3
        if codes.toNat % 16 ≠ 0 then giveUp .rcode
        else do
          let qdcount ← ntohs 4
          let ancount ← ntohs 6
          let arcount ← ntohs 10
          let (len, qname) ← questions cc qdcount sizeofDns none
          let (len, res) ← answers cc qname ancount len none
          let len ← additionals arcount len
          if len ≠ cc then giveUp (.processed len)
          else
            match res with
            | none => giveUp .noArecord
            | some ip => pure ip

end Xv6.User.Dns
