import RoundLedger.Bytes

/-!
# ChaCha with eight rounds

A block of 16 words is made from four rows of four words: the constants, the key in two rows,
and the number of the block. A double round mixes the columns, then the diagonals.
-/

namespace RoundLedger.ChaCha

structure Row where
  a : UInt32
  b : UInt32
  c : UInt32
  d : UInt32

namespace Row

def map₂ (f : UInt32 → UInt32 → UInt32) (x y : Row) : Row :=
  ⟨f x.a y.a, f x.b y.b, f x.c y.c, f x.d y.d⟩

def add (x y : Row) : Row := map₂ (· + ·) x y
def xor (x y : Row) : Row := map₂ (· ^^^ ·) x y

def rotate (x : Row) (n : UInt32) : Row :=
  let r := fun w : UInt32 => w <<< n ||| w >>> (32 - n)
  ⟨r x.a, r x.b, r x.c, r x.d⟩

def turn (x : Row) : Row := ⟨x.b, x.c, x.d, x.a⟩

def toList (x : Row) : List UInt32 := [x.a, x.b, x.c, x.d]

end Row

structure State where
  p : Row
  q : Row
  r : Row
  s : Row

def mixColumns (st : State) : State :=
  let p := st.p.add st.q
  let s := (st.s.xor p).rotate 16
  let r := st.r.add s
  let q := (st.q.xor r).rotate 12
  let p := p.add q
  let s := (s.xor p).rotate 8
  let r := r.add s
  let q := (q.xor r).rotate 7
  ⟨p, q, r, s⟩

def doubleRound (st : State) : State :=
  let m := mixColumns st
  let n := mixColumns ⟨m.p, m.q.turn, m.r.turn.turn, m.s.turn.turn.turn⟩
  ⟨n.p, n.q.turn.turn.turn, n.r.turn.turn, n.s.turn⟩

def constants : Row := ⟨0x61707865, 0x3320646e, 0x79622d32, 0x6b206574⟩

structure Secret where
  low : Row
  high : Row

def block (key : Secret) (number : UInt64) : List UInt32 :=
  let start : State := ⟨constants, key.low, key.high, ⟨number.toUInt32, (number >>> 32).toUInt32, 0, 0⟩⟩
  let mixed := doubleRound (doubleRound (doubleRound (doubleRound start)))
  (mixed.p.add start.p).toList ++ (mixed.q.add start.q).toList ++ (mixed.r.add start.r).toList
    ++ (mixed.s.add start.s).toList

end RoundLedger.ChaCha
