import RoundLedger.Word

/-!
# The BLAKE2b compression function

The mixing of one block of 16 words into a state of 8, with a free number of rounds. The
working state is four rows of four words: a round mixes its columns, then its diagonals.
-/

namespace RoundLedger.Blake2

structure Row where
  a : UInt64
  b : UInt64
  c : UInt64
  d : UInt64

namespace Row

@[inline] def map₂ (f : UInt64 → UInt64 → UInt64) (x y : Row) : Row :=
  ⟨f x.a y.a, f x.b y.b, f x.c y.c, f x.d y.d⟩

@[inline] def add (x y : Row) : Row := map₂ (· + ·) x y
@[inline] def xor (x y : Row) : Row := map₂ (· ^^^ ·) x y

@[inline] def rotate (x : Row) (n : UInt64) : Row :=
  let r := fun w : UInt64 => w >>> n ||| w <<< (64 - n)
  ⟨r x.a, r x.b, r x.c, r x.d⟩

@[inline] def turn (x : Row) : Row := ⟨x.b, x.c, x.d, x.a⟩

def toList (x : Row) : List UInt64 := [x.a, x.b, x.c, x.d]

def ofList (words : List UInt64) : Row :=
  ⟨words.getD 0 0, words.getD 1 0, words.getD 2 0, words.getD 3 0⟩

end Row

structure State where
  p : Row
  q : Row
  r : Row
  s : Row

def mixColumns (st : State) (x y : Row) : State :=
  let p := (st.p.add st.q).add x
  let s := (st.s.xor p).rotate 32
  let r := st.r.add s
  let q := (st.q.xor r).rotate 24
  let p := (p.add q).add y
  let s := (s.xor p).rotate 16
  let r := r.add s
  let q := (q.xor r).rotate 63
  ⟨p, q, r, s⟩

/-- The message words of a round, in the order in which they are fed in. -/
def schedule : List (List Nat) :=
  [[0, 1, 2, 3, 4, 5, 6, 7, 8, 9, 10, 11, 12, 13, 14, 15],
    [14, 10, 4, 8, 9, 15, 13, 6, 1, 12, 0, 2, 11, 7, 5, 3],
    [11, 8, 12, 0, 5, 2, 15, 13, 10, 14, 3, 6, 7, 1, 9, 4],
    [7, 9, 3, 1, 13, 12, 11, 14, 2, 6, 5, 10, 4, 0, 15, 8],
    [9, 0, 5, 7, 2, 4, 10, 15, 14, 1, 11, 12, 6, 8, 3, 13],
    [2, 12, 6, 10, 0, 11, 8, 3, 4, 13, 7, 5, 15, 14, 1, 9],
    [12, 5, 1, 15, 14, 13, 4, 10, 0, 7, 6, 3, 9, 2, 8, 11],
    [13, 11, 7, 14, 12, 1, 3, 9, 5, 0, 15, 4, 8, 6, 2, 10],
    [6, 15, 14, 9, 11, 3, 0, 8, 12, 2, 13, 7, 1, 4, 10, 5],
    [10, 2, 8, 4, 7, 6, 1, 5, 15, 11, 9, 14, 3, 12, 13, 0]]

structure Feed where
  w : Row
  x : Row
  y : Row
  z : Row

def Feed.ofOrder (message : List UInt64) (order : List Nat) : Feed :=
  let words := order.map fun i => message.getD i 0
  let pick := fun i j k l => Row.mk (words.getD i 0) (words.getD j 0) (words.getD k 0) (words.getD l 0)
  ⟨pick 0 2 4 6, pick 1 3 5 7, pick 8 10 12 14, pick 9 11 13 15⟩

def round (st : State) (feed : Feed) : State :=
  let m := mixColumns st feed.w feed.x
  let n := mixColumns ⟨m.p, m.q.turn, m.r.turn.turn, m.s.turn.turn.turn⟩ feed.y feed.z
  ⟨n.p, n.q.turn.turn.turn, n.r.turn.turn, n.s.turn⟩

/-- `count` rounds; after the last feed the first one follows again. -/
def rounds (feeds : List Feed) : Nat → List Feed → State → State
  | 0, _, st => st
  | count + 1, feed :: rest, st => rounds feeds count rest (round st feed)
  | count + 1, [], st =>
    match feeds with
    | feed :: rest => rounds feeds count rest (round st feed)
    | [] => st

def initial : List UInt64 :=
  [0x6a09e667f3bcc908, 0xbb67ae8584caa73b, 0x3c6ef372fe94f82b, 0xa54ff53a5f1d36f1,
    0x510e527fade682d1, 0x9b05688c2b3e6c1f, 0x1f83d9abfb41bd6b, 0x5be0cd19137e2179]

/-- The next chaining state. `low` and `high` count the bytes so far, and `final` marks the
last block. -/
def compress (count : Nat) (chain message : List UInt64) (low high : UInt64) (final : Bool) :
    List UInt64 :=
  let counters : Row := ⟨low, high, if final then 0xffffffffffffffff else 0, 0⟩
  let start : State :=
    ⟨Row.ofList chain, Row.ofList (chain.drop 4), Row.ofList initial,
      (Row.ofList (initial.drop 4)).xor counters⟩
  let feeds := schedule.map (Feed.ofOrder message)
  let st := rounds feeds count feeds start
  ((Row.ofList chain).xor (st.p.xor st.r)).toList
    ++ ((Row.ofList (chain.drop 4)).xor (st.q.xor st.s)).toList

end RoundLedger.Blake2
