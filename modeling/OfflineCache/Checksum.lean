import OfflineCache.Digest.Sha512
import OfflineCache.Text.Base64
import OfflineCache.Text.Blank
import OfflineCache.Text.Cut
import OfflineCache.Text.Hex
import OfflineCache.Text.Quoted

/-! Checksums: an algorithm with the bytes of a digest. Three spellings are read (the algorithm's
name with base64, bare hexadecimal, hexadecimal behind a cache key); the first of them is the one
that is written. -/

namespace OfflineCache

open Text

inductive Algorithm where
  | sha256
  | sha512
deriving DecidableEq, Repr

namespace Algorithm

def name : Algorithm → String
  | .sha256 => "sha256"
  | .sha512 => "sha512"

def ofName? (s : String) : Option Algorithm :=
  match s with
  | "sha256" => some .sha256
  | "sha512" => some .sha512
  | _ => none

/-- Bytes in a digest. -/
def size : Algorithm → Nat
  | .sha256 => 32
  | .sha512 => 64

def ofHexLength? (n : Nat) : Option Algorithm :=
  if n = 64 then some .sha256 else if n = 128 then some .sha512 else none

def digest : Algorithm → Bytes → Bytes
  | .sha256 => Digest.Sha256.digest
  | .sha512 => Digest.Sha512.digest

theorem length_digest (a : Algorithm) (bs : Bytes) : (a.digest bs).length = a.size := by
  cases a
  · exact Digest.Sha256.length_digest bs
  · exact Digest.Sha512.length_digest bs

end Algorithm

structure Checksum where
  algorithm : Algorithm
  digest : Bytes
deriving DecidableEq, Repr

namespace Checksum

inductive Error where
  | empty
  | badBase64 (algorithm : Algorithm)
  | wrongLength (algorithm : Algorithm) (length : Nat)
  | unsupportedAlgorithm (name : String)
  | unknownLength (text : String)
  | badHex (cause : Hex.Error)
deriving DecidableEq, Repr

def hexMessage : Hex.Error → String
  | .oddLength => "Odd number of digits"
  | .badByte b i =>
    s!"Invalid character {String.ofList (Quoted.char (Char.ofNat b.toNat))} at position {i}"

def Error.message : Error → String
  | .empty => "empty checksum"
  | .badBase64 a => s!"decode {a.name} base64"
  | .wrongLength a n => s!"{a.name} digest has wrong length {n}"
  | .unsupportedAlgorithm n => s!"unsupported checksum algorithm '{n}'"
  | .unknownLength t => s!"checksum '{t}' has unrecognised length"
  | .badHex e => s!"decode checksum hex: {hexMessage e}"

def compute (a : Algorithm) (body : Bytes) : Checksum := ⟨a, a.digest body⟩

def isAlphanumeric (c : Char) : Bool :=
  ('0' ≤ c && c ≤ '9') || ('A' ≤ c && c ≤ 'Z') || ('a' ≤ c && c ≤ 'z')

def parseBase64 (a : Algorithm) (s : List Char) : Except Error Checksum :=
  match Base64.decode? s with
  | none => .error (.badBase64 a)
  | some digest =>
    if digest.length = a.size then .ok ⟨a, digest⟩ else .error (.wrongLength a digest.length)

/-- Hexadecimal digits after the last slash; their number tells the algorithm. -/
def parseHex (s : List Char) : Except Error Checksum :=
  let digits := ((cutLast '/' s).map (·.2)).getD s
  match Algorithm.ofHexLength? (Utf8.length digits) with
  | none => .error (.unknownLength (String.ofList s))
  | some a =>
    match Hex.decode digits with
    | .error e => .error (.badHex e)
    | .ok digest => .ok ⟨a, digest⟩

def parseTrimmed (s : List Char) : Except Error Checksum :=
  match cut '-' s with
  | none => parseHex s
  | some (name, digits) =>
    match Algorithm.ofName? (String.ofList name) with
    | some a => parseBase64 a digits
    | none =>
      if name.all isAlphanumeric then .error (.unsupportedAlgorithm (String.ofList name))
      else parseHex s

def parse (raw : String) : Except Error Checksum :=
  let s := trim raw.toList
  if s = [] then .error .empty else parseTrimmed s

def hex (c : Checksum) : String := String.ofList (Hex.encode c.digest)

/-- The algorithm's name, a hyphen and the digest in base64. -/
def render (c : Checksum) : String :=
  c.algorithm.name ++ "-" ++ String.ofList (Base64.encode c.digest)

instance : ToString Checksum := ⟨render⟩

def accepts (c : Checksum) (body : Bytes) : Bool := c.algorithm.digest body == c.digest

end Checksum

end OfflineCache
