import RoundLedger.Word

/-!
# Keccak-256

The sponge over the permutation Keccak-f[1600] with a rate of 136 bytes. The padding is a
single one bit, zeros, and a final one bit. The state is five planes of five 64-bit lanes.
-/

namespace RoundLedger.Keccak

structure Plane where
  a : UInt64
  b : UInt64
  c : UInt64
  d : UInt64
  e : UInt64

def Plane.xor (p q : Plane) : Plane :=
  ⟨p.a ^^^ q.a, p.b ^^^ q.b, p.c ^^^ q.c, p.d ^^^ q.d, p.e ^^^ q.e⟩

structure State where
  p : Plane
  q : Plane
  r : Plane
  s : Plane
  t : Plane

def rotate (x : UInt64) (n : UInt64) : UInt64 := x <<< n ||| x >>> (64 - n)

/-! ## The layers of a round -/

/-- Adds to every lane the parities of two neighbouring columns. -/
def theta (st : State) : State :=
  let c := st.p.xor (st.q.xor (st.r.xor (st.s.xor st.t)))
  let d : Plane :=
    ⟨c.e ^^^ rotate c.b 1, c.a ^^^ rotate c.c 1, c.b ^^^ rotate c.d 1, c.c ^^^ rotate c.e 1,
      c.d ^^^ rotate c.a 1⟩
  ⟨st.p.xor d, st.q.xor d, st.r.xor d, st.s.xor d, st.t.xor d⟩

/-- Rotates every lane by its own offset and moves it to its new place. -/
def rhoPi (st : State) : State :=
  ⟨⟨st.p.a, rotate st.q.b 44, rotate st.r.c 43, rotate st.s.d 21, rotate st.t.e 14⟩,
    ⟨rotate st.p.d 28, rotate st.q.e 20, rotate st.r.a 3, rotate st.s.b 45, rotate st.t.c 61⟩,
    ⟨rotate st.p.b 1, rotate st.q.c 6, rotate st.r.d 25, rotate st.s.e 8, rotate st.t.a 18⟩,
    ⟨rotate st.p.e 27, rotate st.q.a 36, rotate st.r.b 10, rotate st.s.c 15, rotate st.t.d 56⟩,
    ⟨rotate st.p.c 62, rotate st.q.d 55, rotate st.r.e 39, rotate st.s.a 41, rotate st.t.b 2⟩⟩

/-- The only layer that is not linear. -/
def chi (p : Plane) : Plane :=
  ⟨p.a ^^^ (~~~p.b &&& p.c), p.b ^^^ (~~~p.c &&& p.d), p.c ^^^ (~~~p.d &&& p.e),
    p.d ^^^ (~~~p.e &&& p.a), p.e ^^^ (~~~p.a &&& p.b)⟩

def round (st : State) (constant : UInt64) : State :=
  let m := rhoPi (theta st)
  let p := chi m.p
  ⟨{ p with a := p.a ^^^ constant }, chi m.q, chi m.r, chi m.s, chi m.t⟩

def roundConstants : List UInt64 :=
  [0x0000000000000001, 0x0000000000008082, 0x800000000000808a, 0x8000000080008000,
    0x000000000000808b, 0x0000000080000001, 0x8000000080008081, 0x8000000000008009,
    0x000000000000008a, 0x0000000000000088, 0x0000000080008009, 0x000000008000000a,
    0x000000008000808b, 0x800000000000008b, 0x8000000000008089, 0x8000000000008003,
    0x8000000000008002, 0x8000000000000080, 0x000000000000800a, 0x800000008000000a,
    0x8000000080008081, 0x8000000000008080, 0x0000000080000001, 0x8000000080008008]

def permute (st : State) : State := roundConstants.foldl round st

/-! ## The sponge -/

def rate : Nat := 136

/-- The message with the closing bits, filled up to whole blocks. -/
def pad (message : Bytes) : Bytes :=
  let missing := rate - message.length % rate
  if missing = 1 then message ++ [0x81]
  else message ++ 0x01 :: List.replicate (missing - 2) 0 ++ [0x80]

def plane : List UInt64 → Plane
  | a :: b :: c :: d :: e :: _ => ⟨a, b, c, d, e⟩
  | a :: b :: _ => ⟨a, b, 0, 0, 0⟩
  | _ => ⟨0, 0, 0, 0, 0⟩

/-- A block spread over the first 17 lanes. -/
def blockState (block : Bytes) : State :=
  let lanes := (block.chunks 8).map fun lane => UInt64.ofNat (LittleEndian.decode lane)
  ⟨plane lanes, plane (lanes.drop 5), plane (lanes.drop 10), plane (lanes.drop 15), plane []⟩

def absorb (st : State) (block : Bytes) : State :=
  let b := blockState block
  permute ⟨st.p.xor b.p, st.q.xor b.q, st.r.xor b.r, st.s.xor b.s, st.t.xor b.t⟩

/-- The 32 bytes of the hash of a message. -/
def hash (message : Bytes) : Bytes :=
  let zero : State := ⟨plane [], plane [], plane [], plane [], plane []⟩
  let final := ((pad message).chunks rate).foldl absorb zero
  [final.p.a, final.p.b, final.p.c, final.p.d].flatMap fun lane => LittleEndian.encode 8 lane.toNat

def digest (message : Bytes) : Digest := Word.ofBytes (hash message)

end RoundLedger.Keccak
