/-!
A multiplicative hash over 64-bit words. Equal word sequences hash alike on every machine, which
lets a bucket number outlive the process that computed it.
-/

namespace EventContexts.WordHash

def step (h w : UInt64) : UInt64 := (h + w) * 0xf1357aea2e62a9c5

def rotateLeft26 (h : UInt64) : UInt64 := h <<< 26 ||| h >>> 38

def ofWords (words : List UInt64) : UInt64 := rotateLeft26 (words.foldl step 0)

def mix (x y : UInt64) : UInt64 :=
  let product := x.toNat * y.toNat
  UInt64.ofNat product ^^^ UInt64.ofNat (product / UInt64.size)

def load (bytes : List UInt8) : UInt64 :=
  UInt64.ofNat (bytes.foldr (fun b n => b.toNat + 256 * n) 0)

def byteAt (bytes : List UInt8) (i : Nat) : UInt64 := (bytes.getD i 0).toUInt64

def foldBlocks : Nat → List UInt8 → UInt64 × UInt64 → UInt64 × UInt64
  | 0, _, s => s
  | fuel + 1, bytes, (s₀, s₁) =>
      if bytes.length ≤ 16 then (s₀, s₁)
      else
        let t := mix (s₀ ^^^ load (bytes.take 8))
          (0xa4093822299f31d0 ^^^ load ((bytes.drop 8).take 8))
        foldBlocks fuel (bytes.drop 16) (s₁, t)

def ofBytes (bytes : List UInt8) : UInt64 :=
  let n := bytes.length
  let s₀ : UInt64 := 0x243f6a8885a308d3
  let s₁ : UInt64 := 0x13198a2e03707344
  let (s₀, s₁) :=
    if 17 ≤ n then
      let (s₀, s₁) := foldBlocks n bytes (s₀, s₁)
      (s₀ ^^^ load ((bytes.drop (n - 16)).take 8), s₁ ^^^ load (bytes.drop (n - 8)))
    else if 8 ≤ n then (s₀ ^^^ load (bytes.take 8), s₁ ^^^ load (bytes.drop (n - 8)))
    else if 4 ≤ n then (s₀ ^^^ load (bytes.take 4), s₁ ^^^ load (bytes.drop (n - 4)))
    else if 1 ≤ n then
      (s₀ ^^^ byteAt bytes 0,
        s₁ ^^^ (byteAt bytes (n - 1) <<< 8 ||| byteAt bytes (n / 2)))
    else (s₀, s₁)
  mix s₀ s₁ ^^^ UInt64.ofNat n

def textWords (s : String) : List UInt64 := [ofBytes s.toUTF8.toList, 255]

end EventContexts.WordHash
