/-
The hash function SHA-256.

A message is padded to whole chunks of 64 bytes, and the chunks are folded into a state of
eight words.  Each chunk is expanded to 64 words, one for each round, and every round
turns the state by one word and mixes two fresh words in.  The digest is the final state
with the most significant byte of each word first, so it always has 32 bytes.

The constants are the leading fractional bits of roots of the first primes and are
computed as such: square roots for the initial state, cube roots for the rounds.
-/
import PointSharing.Bytes

namespace PointSharing.Sha256

/-! ### Constants -/

/-- The largest root of `n` that agrees with `base` above its low `bits` bits, when `base` is not
above the root. -/
def rootFrom (degree n base : Nat) : (bits : Nat) → Nat
  | 0 => base
  | bits + 1 =>
    let larger := base + 1 <<< bits
    rootFrom degree n (if Nat.pow larger degree ≤ n then larger else base) bits

/-- The first 32 fractional bits of a root of `n`; the whole part has at most eight bits. -/
def rootFraction (degree n : Nat) : UInt32 :=
  UInt32.ofNat (rootFrom degree (n <<< (32 * degree)) 0 40)

/-- The first 64 primes. -/
def primes : List Nat :=
  (List.range 312).filter fun n => 2 ≤ n && (List.range n).all fun d => d < 2 || n % d != 0

/-- The constants of the 64 rounds. -/
def roundConstants : List UInt32 := primes.map (rootFraction 3)

/-! ### States -/

/-- The eight words that a message is folded into. -/
structure State where
  /-- The word that each round computes anew from two mixed words. -/
  a : UInt32
  /-- The value of `a` one round before. -/
  b : UInt32
  /-- The value of `a` two rounds before. -/
  c : UInt32
  /-- The value of `a` three rounds before. -/
  d : UInt32
  /-- The word that each round computes anew from one mixed word. -/
  e : UInt32
  /-- The value of `e` one round before. -/
  f : UInt32
  /-- The value of `e` two rounds before. -/
  g : UInt32
  /-- The value of `e` three rounds before. -/
  h : UInt32

namespace State

/-- The words of a state, in order. -/
def toList (s : State) : List UInt32 := [s.a, s.b, s.c, s.d, s.e, s.f, s.g, s.h]

/-- Adds two states word by word. -/
def add (s t : State) : State :=
  ⟨s.a + t.a, s.b + t.b, s.c + t.c, s.d + t.d, s.e + t.e, s.f + t.f, s.g + t.g, s.h + t.h⟩

/-- The state before the first chunk. -/
def initial : State where
  a := rootFraction 2 2
  b := rootFraction 2 3
  c := rootFraction 2 5
  d := rootFraction 2 7
  e := rootFraction 2 11
  f := rootFraction 2 13
  g := rootFraction 2 17
  h := rootFraction 2 19

end State

/-! ### One chunk -/

/-- A word turned right by some bits. -/
def turn (x : UInt32) (bits : UInt32) : UInt32 := (x >>> bits) ||| (x <<< (32 - bits))

/-- One round, with its constant and its word of the expanded chunk. -/
def round (s : State) (constant word : UInt32) : State :=
  let choice := (s.e &&& s.f) ^^^ (~~~s.e &&& s.g)
  let majority := (s.a &&& s.b) ^^^ (s.a &&& s.c) ^^^ (s.b &&& s.c)
  let fresh := s.h + (turn s.e 6 ^^^ turn s.e 11 ^^^ turn s.e 25) + choice + constant + word
  let mixed := (turn s.a 2 ^^^ turn s.a 13 ^^^ turn s.a 22) + majority
  ⟨fresh + mixed, s.a, s.b, s.c, s.d + fresh, s.e, s.f, s.g⟩

/-- The word that follows sixteen consecutive words of an expanded chunk. -/
def nextWord (window : Vector UInt32 16) : UInt32 :=
  let w1 := window.get 1
  let w14 := window.get 14
  window.get 0 + (turn w1 7 ^^^ turn w1 18 ^^^ (w1 >>> 3)) + window.get 9
    + (turn w14 17 ^^^ turn w14 19 ^^^ (w14 >>> 10))

/-- The window one word further. -/
def slide (window : Vector UInt32 16) : Vector UInt32 16 :=
  Vector.ofFn fun i => if h : i.val + 1 < 16 then window.get ⟨i.val + 1, h⟩ else nextWord window

/-- The rounds for the given constants, the window starting at the word of the first. -/
def rounds : List UInt32 → Vector UInt32 16 → State → State
  | [], _, s => s
  | constant :: constants, window, s =>
    rounds constants (slide window) (round s constant (window.get 0))

/-- The number whose bytes are given most significant first. -/
def wordOfBytes (bytes : Bytes) : UInt32 :=
  bytes.foldl (fun acc b => (acc <<< 8) ||| b.toUInt32) 0

/-- The bytes of a word, most significant first. -/
def bytesOfWord (x : UInt32) : Bytes :=
  [(x >>> 24).toUInt8, (x >>> 16).toUInt8, (x >>> 8).toUInt8, x.toUInt8]

/-- Folds one chunk of 64 bytes into a state. -/
def compress (s : State) (chunk : Bytes) : State :=
  let window := Vector.ofFn fun i : Fin 16 => wordOfBytes ((chunk.drop (4 * i)).take 4)
  s.add (rounds roundConstants window s)

/-! ### Messages -/

/-- The message followed by a one bit, zeros up to whole chunks, and its length in bits. -/
def pad (message : Bytes) : Bytes :=
  let bits := UInt64.ofNat (8 * message.length)
  let length := (List.range 8).map fun i => (bits >>> UInt64.ofNat (8 * (7 - i))).toUInt8
  message ++ 0x80 :: Bytes.zeros ((119 - message.length % 64) % 64) ++ length

/-- The digest of a message. -/
def digest (message : Bytes) : Bytes :=
  let padded := pad message
  let chunks := Bytes.words 64 (padded.length / 64) padded
  (chunks.foldl compress State.initial).toList.flatMap bytesOfWord

@[simp] theorem length_digest (message : Bytes) : (digest message).length = 32 := by
  simp [digest, State.toList, bytesOfWord]

end PointSharing.Sha256
