import OfflineCache.FileTree.Listing
import OfflineCache.Text.Utf8

/-! Tape archives of directories and files, in a form that the same content always has: fixed
owner, fixed time, and no rights but to run. -/

namespace OfflineCache.Archive

inductive Entry where
  | directory (path : Place)
  | file (path : Place) (content : Bytes) (executable : Bool)
  deriving DecidableEq, Repr

namespace Entry

def path : Entry → Place
  | .directory p => p
  | .file p _ _ => p

def content : Entry → Bytes
  | .directory _ => []
  | .file _ b _ => b

/-- The rights, read as an octal number. -/
def mode : Entry → Nat
  | .directory _ => 0o755
  | .file _ _ true => 0o755
  | .file _ _ false => 0o644

def name (e : Entry) : List Char := ['/'].intercalate e.path

end Entry

namespace Tar

def time : Nat := 1153704088

/-- The length of a record; content is filled up to it. -/
def recordLength : Nat := 512

/-- The longest name that fits into a header. -/
def nameLength : Nat := 100

def ascii (s : String) : Bytes := Text.Utf8.encode s.toList

def fill (width : Nat) (b : Bytes) : Bytes := b ++ List.replicate (width - b.length) 0

/-- An octal number with zeros in front, ended by a zero byte. -/
def octal (width n : Nat) : Bytes :=
  let ds := Text.Utf8.encode (Nat.toDigits 8 n)
  List.replicate (width - 1 - ds.length) 0x30 ++ ds ++ [0]

def sum (b : Bytes) : Nat := b.foldl (fun n x => n + x.toNat) 0

/-- A header around its checksum, which counts as blanks while it is computed. -/
def header (name : Bytes) (mode size time : Nat) (kind : UInt8) : Bytes :=
  let front := fill nameLength (name.take nameLength) ++ octal 8 mode ++ octal 8 0 ++ octal 8 0 ++
    octal 12 size ++ octal 12 time
  let back := fill (recordLength - 156) (kind :: List.replicate 100 0 ++ ascii "ustar  " ++ [0])
  front ++ octal 8 (sum front + 8 * 0x20 + sum back) ++ back

def padded (b : Bytes) : Bytes :=
  b ++ List.replicate ((recordLength - b.length % recordLength) % recordLength) 0

/-- A name that does not fit into the header goes before it as content of its own. -/
def longName (name : Bytes) : Bytes :=
  if name.length < nameLength then []
  else header (ascii "././@LongLink") 0o644 (name.length + 1) 0 0x4c ++ padded (name ++ [0])

def entry (e : Entry) : Bytes :=
  let name := Text.Utf8.encode e.name
  let kind : UInt8 := match e with
    | .directory _ => 0x35
    | .file .. => 0x30
  longName name ++ header name e.mode e.content.length time kind ++ padded e.content

def pack (es : List Entry) : Bytes := es.flatMap entry ++ List.replicate (2 * recordLength) 0

end Tar

end OfflineCache.Archive
