import OfflineCache.Locator.Basic
import OfflineCache.Text.Percent
import OfflineCache.Version.Range

/-! The text form of locators: `name@protocol:reference#subdirectory::key=value&key=value`. A patch
holds the percent-encoded text of its base. Reading recurses on the number of bytes: the base is a
proper part of the text, and decoding never makes a text longer. -/

namespace OfflineCache.Locator

open Text

/-- Why a text is no locator. -/
inductive Reason where
  | noReference
  | badName (name : String)
  | emptyReference
  | badParameter (pair : String)
  | emptyParameterName
  | noPatchSource
  | emptyPatchSource
  | badPatchBase (cause : Reason)
  | emptySubdirectory
  | emptyFilePath
  | emptyBody (protocol : Protocol)
  | emptyUrl (protocol : Protocol)
  | unknownProtocol (name : String)
  | badAlias (name : String)
  | notRange (range : String)
  | noProtocolNorRange (reference : String)
  | rangeOverflow
  | badChecksum (cause : Checksum.Error)
deriving DecidableEq, Repr

def Reason.message : Reason → String
  | .noReference => "expected '<name>@<reference>'"
  | .badName n => s!"invalid package name '{n}'"
  | .emptyReference => "empty reference"
  | .badParameter p => s!"binding parameter '{p}' is not key=value"
  | .emptyParameterName => "empty binding parameter name"
  | .noPatchSource => "patch locator is missing '#<patch-source>'"
  | .emptyPatchSource => "empty patch source"
  | .badPatchBase r => "invalid patch base: " ++ r.message
  | .emptySubdirectory => "empty subdirectory after '#'"
  | .emptyFilePath => "empty file path"
  | .emptyBody p => s!"empty {p.name} reference"
  | .emptyUrl p => s!"empty {p.name} URL"
  | .unknownProtocol n => s!"unknown protocol '{n}:'"
  | .badAlias n => s!"invalid alias target '{n}'"
  | .notRange r => s!"'{r}' is not a version range"
  | .noProtocolNorRange r => s!"'{r}' is neither a known protocol nor a version range"
  | .rangeOverflow => "attempt to add with overflow"
  | .badChecksum e => "checksum: " ++ e.message

/-- The name in front of the first at sign; the one of a scope is part of the name. -/
def splitIdent : List Char → Option (List Char × List Char)
  | '@' :: r => (cut '@' r).map fun (a, b) => ('@' :: a, b)
  | s => cut '@' s

def optionalMarker : List Char := "optional!".toList

def parameter (pair : List Char) : Except Reason (String × String) :=
  match cut '=' pair with
  | none => .error (.badParameter (String.ofList pair))
  | some ([], _) => .error .emptyParameterName
  | some (k, v) => .ok (String.ofList k, String.ofList v)

def splitParams (payload : List Char) : Except Reason (List Char × List (String × String)) :=
  match cutText "::".toList payload with
  | none => .ok (payload, [])
  | some (body, params) => do return (body, ← (splitAll '&' params).mapM parameter)

def looksLikeGitUrl (url : List Char) : Bool :=
  endsWith ".git".toList (((cut '#' url).map (·.1)).getD url) || containsText "#commit=".toList url

/-- A registry reference is a range, or another package's name in front of one. -/
def checkRegistry (body : List Char) : Except Reason Unit :=
  let decoded := Percent.decode body
  let check (range : List Char) : Except Reason Unit :=
    match Version.Range.isRange range with
    | .error _ => .error .rangeOverflow
    | .ok true => .ok ()
    | .ok false => .error (.notRange (String.ofList range))
  match splitIdent decoded with
  | some (name, range) =>
    if name = [] then check decoded
    else if (Ident.parse? name).isNone then .error (.badAlias (String.ofList name))
    else check range
  | none => check decoded

/-- A locator, but for a patch the base is still text. -/
inductive Shape where
  | whole (l : Locator)
  | patched (ident : Ident) (body : List Char) (params : List (String × String))
      (base source : List Char)

def bareRange (ident : Ident) (reference : List Char) : Except Reason Shape :=
  match Version.Range.isRange reference with
  | .error _ => .error .rangeOverflow
  | .ok false => .error (.noProtocolNorRange (String.ofList reference))
  | .ok true => .ok (.whole (.simple ident .registry reference []))

def patchShape (ident : Ident) (payload : List Char) : Except Reason Shape := do
  let (body, params) ← splitParams payload
  match cut '#' body with
  | none => .error .noPatchSource
  | some (base, source) =>
    if source = [] then .error .emptyPatchSource
    else .ok (.patched ident body params base source)

def fileShape (ident : Ident) (payload : List Char) : Except Reason Shape := do
  let (body, params) ← splitParams payload
  match cut '#' body with
  | some (_, []) => .error .emptySubdirectory
  | some (path, sub) =>
    if path = [] then .error .emptyFilePath
    else .ok (.whole { simple ident .file path params with subdirectory := String.ofList sub })
  | none =>
    if body = [] then .error .emptyFilePath else .ok (.whole (.simple ident .file body params))

def plainShape (ident : Ident) (protocol : Protocol) (payload : List Char) :
    Except Reason Shape := do
  let (body, params) ← splitParams payload
  if body = [] then .error (.emptyBody protocol)
  else
    if protocol = .registry then checkRegistry body
    return .whole (.simple ident protocol body params)

def urlShape (ident : Ident) (protocol : Protocol) (payload reference : List Char) :
    Except Reason Shape :=
  if payload.all (· == '/') then .error (.emptyUrl protocol)
  else .ok (.whole (.simple ident protocol reference []))

def isPrefixChar (c : Char) : Bool := Checksum.isAlphanumeric c || c == '+'

/-- Reads what stands behind the name. -/
def shapeOf (ident : Ident) (reference : List Char) : Except Reason Shape :=
  if "git@".toList.isPrefixOf reference then .ok (.whole (.simple ident .git reference []))
  else match cut ':' reference with
    | none => bareRange ident reference
    | some (tag, payload) =>
      if !tag.all isPrefixChar then bareRange ident reference
      else match Protocol.ofPrefix (String.ofList tag) with
        | .patch => patchShape ident payload
        | .file => fileShape ident payload
        | .http =>
          if looksLikeGitUrl reference then .ok (.whole (.simple ident .git reference []))
          else urlShape ident .http payload reference
        | .git => urlShape ident .git payload reference
        | .other name => .error (.unknownProtocol name)
        | p => plainShape ident p payload

def shape (s : List Char) : Except Reason Shape :=
  match splitIdent (trim s) with
  | none => .error .noReference
  | some (name, reference) =>
    match Ident.parse? name with
    | none => .error (.badName (String.ofList name))
    | some ident => if reference = [] then .error .emptyReference else shapeOf ident reference

/-- The source of a patch without the marker of an optional one. -/
def patchTarget (base : Locator) (source : List Char) : PatchTarget Locator :=
  match optionalMarker.isPrefixOf? (Percent.decode source) with
  | some rest => ⟨base, String.ofList rest, true⟩
  | none => ⟨base, String.ofList (Percent.decode source), false⟩

/-! ### Reading in steps -/

theorem bind_eq_ok_iff {ε α β : Type} {x : Except ε α} {f : α → Except ε β} {b : β} :
    x >>= f = .ok b ↔ ∃ a, x = .ok a ∧ f a = .ok b := by
  cases x <;> simp [bind, Except.bind]

/-- A payload is all body, or its parameters stand behind the body and two colons. -/
theorem of_splitParams {payload body : List Char} {params : List (String × String)}
    (h : splitParams payload = .ok (body, params)) :
    (cutText "::".toList payload = none ∧ body = payload ∧ params = []) ∨
      ∃ text, cutText "::".toList payload = some (body, text) ∧
        (splitAll '&' text).mapM parameter = .ok params := by
  unfold splitParams at h
  split at h
  · rename_i hc
    cases h
    exact Or.inl ⟨hc, rfl, rfl⟩
  · rename_i text hc
    obtain ⟨ps, hm, h⟩ := bind_eq_ok_iff.mp h
    cases h
    exact Or.inr ⟨text, hc, hm⟩

/-! ### The base of a patch is shorter than the patch -/

private theorem length_sublist {s t : List Char} (h : s.Sublist t) :
    Utf8.length s ≤ Utf8.length t := by
  induction h with
  | slnil => simp
  | cons a _ ih => simp only [Utf8.length_cons] at *; omega
  | cons_cons a _ ih => simp only [Utf8.length_cons] at *; omega

private theorem trim_sublist (s : List Char) : (trim s).Sublist s := by
  unfold trim trimEnd trimStart
  refine List.Sublist.trans ?_ (List.dropWhile_sublist isBlank)
  have h := List.dropWhile_sublist isBlank (l := (List.dropWhile isBlank s).reverse)
  simpa using h.reverse

private theorem sublist_of_cutText {sep s a b : List Char} (h : cutText sep s = some (a, b)) :
    a.Sublist s := by
  induction s generalizing a b with
  | nil => simp only [cutText] at h; split at h <;> simp_all
  | cons x r ih =>
    simp only [cutText] at h
    split at h
    · obtain ⟨rfl, rfl⟩ : [] = a ∧ _ = b := by simpa using h
      exact List.nil_sublist _
    · obtain ⟨⟨a', b'⟩, h', he⟩ := Option.map_eq_some_iff.1 h
      obtain ⟨rfl, rfl⟩ : x :: a' = a ∧ b' = b := by simpa using he
      exact (ih h').cons_cons x

private theorem sublist_of_splitParams {payload body : List Char} {params}
    (h : splitParams payload = .ok (body, params)) : body.Sublist payload := by
  rcases of_splitParams h with ⟨-, rfl, -⟩ | ⟨text, hc, -⟩
  · exact List.Sublist.refl _
  · exact sublist_of_cutText hc

private theorem length_lt_of_cut {c : Char} {s a b : List Char} (h : cut c s = some (a, b)) :
    Utf8.length a < Utf8.length s ∧ Utf8.length b < Utf8.length s := by
  obtain ⟨rfl, -⟩ := eq_append_of_cut h
  have := c.utf8Size_pos
  simp only [Utf8.length_append, Utf8.length_cons]
  omega

private theorem length_lt_of_splitIdent {s a b : List Char} (h : splitIdent s = some (a, b)) :
    Utf8.length b < Utf8.length s := by
  unfold splitIdent at h
  split at h
  · rename_i r
    obtain ⟨⟨a', b'⟩, h', he⟩ := Option.map_eq_some_iff.1 h
    obtain ⟨-, rfl⟩ : '@' :: a' = a ∧ b' = b := by simpa using he
    have h1 := (length_lt_of_cut h').2
    simp only [Utf8.length_cons] at *
    omega
  · exact (length_lt_of_cut h).2

private theorem not_patched_of_bareRange {ident ident' : Ident} {reference body base source} {params}
    (h : bareRange ident reference = .ok (.patched ident' body params base source)) : False := by
  unfold bareRange at h
  split at h <;> simp at h

private theorem not_patched_of_urlShape {ident ident' : Ident} {p payload reference body base source}
    {params}
    (h : urlShape ident p payload reference = .ok (.patched ident' body params base source)) :
    False := by
  unfold urlShape at h
  split at h <;> simp at h

private theorem not_patched_of_plainShape {ident ident' : Ident} {p payload body base source} {params}
    (h : plainShape ident p payload = .ok (.patched ident' body params base source)) : False := by
  obtain ⟨⟨plain, ps⟩, -, h⟩ := bind_eq_ok_iff.mp h
  dsimp only at h
  split at h
  · cases h
  · split at h
    · obtain ⟨-, -, h⟩ := bind_eq_ok_iff.mp h
      cases h
    · cases h

private theorem not_patched_of_fileShape {ident ident' : Ident} {payload body base source} {params}
    (h : fileShape ident payload = .ok (.patched ident' body params base source)) : False := by
  obtain ⟨⟨plain, ps⟩, -, h⟩ := bind_eq_ok_iff.mp h
  dsimp only at h
  split at h
  · cases h
  · split at h <;> cases h
  · split at h <;> cases h

private theorem length_base_of_patchShape {ident ident' : Ident} {payload body base source} {params}
    (h : patchShape ident payload = .ok (.patched ident' body params base source)) :
    Utf8.length base < Utf8.length payload := by
  obtain ⟨⟨plain, ps⟩, hs, h⟩ := bind_eq_ok_iff.mp h
  dsimp only at h
  split at h
  · cases h
  · rename_i hc
    split at h
    · cases h
    · cases h
      have hcut := (length_lt_of_cut hc).1
      have hbody := length_sublist (sublist_of_splitParams hs)
      omega

private theorem length_base_of_shapeOf {ident ident' : Ident} {reference body base source} {params}
    (h : shapeOf ident reference = .ok (.patched ident' body params base source)) :
    Utf8.length base < Utf8.length reference := by
  unfold shapeOf at h
  split at h
  · simp at h
  · split at h
    · exact (not_patched_of_bareRange h).elim
    · rename_i tag payload hc
      have hp := (length_lt_of_cut hc).2
      split at h
      · exact (not_patched_of_bareRange h).elim
      · split at h
        · have := length_base_of_patchShape h
          omega
        · exact (not_patched_of_fileShape h).elim
        · split at h
          · simp at h
          · exact (not_patched_of_urlShape h).elim
        · exact (not_patched_of_urlShape h).elim
        · simp at h
        · exact (not_patched_of_plainShape h).elim

theorem length_base_lt {s : List Char} {ident : Ident} {body base source} {params}
    (h : shape s = .ok (.patched ident body params base source)) :
    Utf8.length base < Utf8.length s := by
  unfold shape at h
  split at h
  · simp at h
  · rename_i name reference hc
    split at h
    · simp at h
    · split at h
      · simp at h
      · have h1 := length_base_of_shapeOf h
        have h2 := length_lt_of_splitIdent hc
        have h3 := length_sublist (trim_sublist s)
        omega

/-- Reads a locator; the reason of a failure in a patch base is wrapped once for each level. -/
def read (s : List Char) : Except Reason Locator :=
  match _h : shape s with
  | .error e => .error e
  | .ok (.whole l) => .ok l
  | .ok (.patched ident body params base source) =>
    match read (Percent.decode base) with
    | .error e => .error (.badPatchBase e)
    | .ok b =>
      .ok { simple ident .patch body params with patch := some (patchTarget b source) }
termination_by Utf8.length s
decreasing_by
  have h1 := length_base_lt _h
  have h2 := Percent.length_decode_le base
  omega

/-- A text that is no locator, and why. -/
structure Malformed where
  raw : String
  reason : Reason
deriving DecidableEq, Repr

def Malformed.message (e : Malformed) : String :=
  s!"malformed locator '{e.raw}': {e.reason.message}"

def parse (raw : String) : Except Malformed Locator :=
  (read raw.toList).mapError (⟨raw, ·⟩)

/-! ### Writing -/

def renderParams (params : List (String × String)) : String :=
  match params with
  | [] => ""
  | ps => "::" ++ "&".intercalate (ps.map fun (k, v) => k ++ "=" ++ v)

def renderReference (l : Locator) : String :=
  match l.protocol with
  | .git | .http => l.reference
  | p => p.tag ++ ":" ++ l.reference

def render (l : Locator) : String :=
  l.ident.render ++ "@" ++ l.renderReference ++
    (match l.subdirectory with | some sub => "#" ++ sub | none => "") ++ renderParams l.params

instance : ToString Locator := ⟨render⟩

end OfflineCache.Locator
