import Mathlib.Data.List.Basic
import OfflineCache.Proofs.Layout.Template

/-! Templates as segments: text that stands for itself, and keys in braces. A template that can be
cut into such segments, all of whose keys are known, is rendered as their values one after the other
(`render_eq_ok_iff`), so what stands in a value is never read again. Every other template has a
first place where the cutting stops, and the fault is the one found there (`render_eq_error_iff`).

Rendering goes on with what is left behind a placeholder, and each turn of this loop uses up an
opening brace (`loop_eq_render`). -/

namespace OfflineCache

open Text

namespace Template

variable {lookup : List Char → Option (List Char)} {s : List Char}

/-! ## Segments -/

inductive Segment where
  | literal (text : List Char)
  | placeholder (key : List Char)
  deriving DecidableEq, Repr

namespace Segment

def spell : Segment → List Char
  | literal text => text
  | placeholder key => '{' :: (key ++ ['}'])

/-- A literal ends where a brace opens, a key where the next one closes. -/
def Legible : Segment → Prop
  | literal text => '{' ∉ text
  | placeholder key => '}' ∉ key

def value (lookup : List Char → Option (List Char)) : Segment → List Char
  | literal text => text
  | placeholder key => (lookup key).getD []

end Segment

/-- The segments make up the text. -/
structure SplitsInto (s : List Char) (segments : List Segment) : Prop where
  spelt : s = segments.flatMap Segment.spell
  legible : ∀ g ∈ segments, g.Legible

def Known (lookup : List Char → Option (List Char)) (segments : List Segment) : Prop :=
  ∀ key, .placeholder key ∈ segments → (lookup key).isSome = true

/-- The values of the segments, one after the other. -/
def filled (lookup : List Char → Option (List Char)) (segments : List Segment) : List Char :=
  segments.flatMap (Segment.value lookup)

/-- The first place where the text cannot be read on: in front of it there are segments with known
keys, and there a brace opens that is never closed, or one around a key that is not known. -/
inductive FailsAt (lookup : List Char → Option (List Char)) : List Char → Fault → Prop
  | unclosed {front rest : List Char} {segments : List Segment} :
      SplitsInto front segments → Known lookup segments → '}' ∉ rest →
      FailsAt lookup (front ++ '{' :: rest) .unclosed
  | unknown {front key rest : List Char} {segments : List Segment} :
      SplitsInto front segments → Known lookup segments → '}' ∉ key → lookup key = none →
      FailsAt lookup (front ++ '{' :: (key ++ '}' :: rest)) (.unknown (String.ofList key))

theorem splitsInto_literal {text : List Char} (h : '{' ∉ text) :
    SplitsInto text [.literal text] := ⟨by simp [Segment.spell], by simpa [Segment.Legible] using h⟩

theorem SplitsInto.append {t : List Char} {gs hs : List Segment} (hg : SplitsInto s gs)
    (hh : SplitsInto t hs) : SplitsInto (s ++ t) (gs ++ hs) := by
  refine ⟨by rw [hg.spelt, hh.spelt, List.flatMap_append], fun g hm => ?_⟩
  rcases List.mem_append.mp hm with hm | hm
  · exact hg.legible g hm
  · exact hh.legible g hm

theorem splitsInto_placeholder {lead key : List Char} (hlead : '{' ∉ lead) (hkey : '}' ∉ key) :
    SplitsInto (lead ++ '{' :: (key ++ ['}'])) [.literal lead, .placeholder key] := by
  have hone : SplitsInto ('{' :: (key ++ ['}'])) [.placeholder key] :=
    ⟨by simp [Segment.spell], by simpa [Segment.Legible] using hkey⟩
  exact (splitsInto_literal hlead).append hone

theorem known_literal (text : List Char) : Known lookup [.literal text] := by simp [Known]

theorem known_placeholder {key v : List Char} (lead : List Char) (h : lookup key = some v) :
    Known lookup [.literal lead, .placeholder key] := by simp [Known, h]

theorem Known.append {gs hs : List Segment} (hg : Known lookup gs) (hh : Known lookup hs) :
    Known lookup (gs ++ hs) := by
  intro key hm
  exact (List.mem_append.mp hm).elim (hg key) (hh key)

/-! ## One turn -/

/-- How a text goes on: without a brace that opens, with one that is never closed, or with a key. -/
inductive Onset : List Char → Prop
  | plain {s : List Char} : '{' ∉ s → Onset s
  | unclosed {lead rest : List Char} : '{' ∉ lead → '}' ∉ rest → Onset (lead ++ '{' :: rest)
  | keyed {lead key rest : List Char} :
      '{' ∉ lead → '}' ∉ key → Onset (lead ++ '{' :: (key ++ '}' :: rest))

theorem onset (s : List Char) : Onset s := by
  cases hopen : cut '{' s with
  | none => exact .plain (cut_eq_none_iff.mp hopen)
  | some parts =>
    obtain ⟨rfl, hlead⟩ := eq_append_of_cut (a := parts.1) (b := parts.2) hopen
    cases hclose : cut '}' parts.2 with
    | none => exact .unclosed hlead (cut_eq_none_iff.mp hclose)
    | some behind =>
      obtain ⟨he, hkey⟩ := eq_append_of_cut (a := behind.1) (b := behind.2) hclose
      rw [he]
      exact .keyed hlead hkey

theorem render_unclosed {lead rest : List Char} (hlead : '{' ∉ lead) (hrest : '}' ∉ rest) :
    render lookup (lead ++ '{' :: rest) = .error .unclosed := by
  rw [render]
  split
  · rename_i hcut
    rw [cut_append hlead] at hcut
    cases hcut
  · rename_i hcut
    rw [cut_append hlead] at hcut
    cases hcut
    split
    · rfl
    · rename_i hcut
      rw [cut_eq_none_iff.mpr hrest] at hcut
      cases hcut

theorem render_unknown {lead key : List Char} (hlead : '{' ∉ lead) (hkey : '}' ∉ key)
    (hnone : lookup key = none) (rest : List Char) :
    render lookup (lead ++ '{' :: (key ++ '}' :: rest)) = .error (.unknown (String.ofList key)) := by
  rw [render]
  split
  · rename_i hcut
    rw [cut_append hlead] at hcut
    cases hcut
  · rename_i hcut
    rw [cut_append hlead] at hcut
    cases hcut
    split
    · rename_i hcut
      rw [cut_append hkey] at hcut
      cases hcut
    · rename_i hcut
      rw [cut_append hkey] at hcut
      cases hcut
      rw [hnone]

/-! ## Rendering segments -/

/-- Text without a brace that opens is kept in front of whatever follows. -/
theorem render_literal {text : List Char} (h : '{' ∉ text) (rest : List Char) :
    render lookup (text ++ rest) = (render lookup rest).map (text ++ ·) := by
  have hboth : ∀ {lead : List Char}, '{' ∉ lead → '{' ∉ text ++ lead := by
    intro lead hlead hm
    exact (List.mem_append.mp hm).elim h hlead
  cases onset rest with
  | plain hrest => rw [render_of_notMem hrest, render_of_notMem (hboth hrest)]; rfl
  | unclosed hlead hrest =>
    rw [← List.append_assoc, render_unclosed (hboth hlead) hrest, render_unclosed hlead hrest]
    rfl
  | @keyed lead key rest hlead hkey =>
    rw [← List.append_assoc]
    cases hv : lookup key with
    | none => rw [render_unknown (hboth hlead) hkey hv, render_unknown hlead hkey hv]; rfl
    | some v =>
      rw [render_placeholder (hboth hlead) hkey hv, render_placeholder hlead hkey hv]
      cases render lookup rest <;> simp [Except.map]

/-- Segments with known keys give way to their values, whatever follows. -/
theorem render_segments {segments : List Segment} (hs : SplitsInto s segments)
    (hk : Known lookup segments) (rest : List Char) :
    render lookup (s ++ rest) = (render lookup rest).map (filled lookup segments ++ ·) := by
  obtain ⟨rfl, hlegible⟩ := hs
  induction segments with
  | nil => cases h : render lookup rest <;> simp [filled, Except.map, h]
  | cons g gs ih =>
    obtain ⟨hg, hgs⟩ := List.forall_mem_cons.mp hlegible
    have hrest := ih (fun key hm => hk key (List.mem_cons_of_mem g hm)) hgs
    rw [List.flatMap_cons, List.append_assoc, filled, List.flatMap_cons]
    cases g with
    | literal text =>
      rw [Segment.spell, render_literal hg, hrest]
      cases render lookup rest <;> simp [Except.map, filled, Segment.value]
    | placeholder key =>
      obtain ⟨v, hv⟩ := Option.isSome_iff_exists.mp (hk key (by simp))
      have hturn := render_placeholder List.not_mem_nil hg hv (gs.flatMap Segment.spell ++ rest)
      simp only [List.nil_append] at hturn
      rw [Segment.spell, List.cons_append, List.append_assoc, List.singleton_append, hturn, hrest]
      cases render lookup rest <;> simp [Except.map, filled, Segment.value, hv]

theorem FailsAt.behind {lead key v : List Char} {f : Fault} (hlead : '{' ∉ lead) (hkey : '}' ∉ key)
    (hv : lookup key = some v) (h : FailsAt lookup s f) :
    FailsAt lookup (lead ++ '{' :: (key ++ '}' :: s)) f := by
  have hsplit := splitsInto_placeholder hlead hkey
  have hknown := known_placeholder lead hv
  cases h with
  | @unclosed front rest segments hs hk hrest =>
    have hfails := FailsAt.unclosed (hsplit.append hs) (hknown.append hk) hrest
    simpa using hfails
  | @unknown front key' rest segments hs hk hkey' hnone =>
    have hfails : FailsAt lookup
        (lead ++ '{' :: (key ++ ['}']) ++ front ++ '{' :: (key' ++ '}' :: rest)) _ :=
      .unknown (hsplit.append hs) (hknown.append hk) hkey' hnone
    simpa using hfails

/-- Every text can be cut up to its end, or up to the first place where it cannot be read on. -/
theorem splits_or_fails (lookup : List Char → Option (List Char)) (s : List Char) :
    (∃ segments, SplitsInto s segments ∧ Known lookup segments) ∨ ∃ f, FailsAt lookup s f := by
  induction hn : s.length using Nat.strongRecOn generalizing s with
  | _ n ih =>
    cases onset s with
    | plain h => exact Or.inl ⟨_, splitsInto_literal h, known_literal _⟩
    | unclosed hlead hrest =>
      exact Or.inr ⟨_, .unclosed (splitsInto_literal hlead) (known_literal _) hrest⟩
    | @keyed lead key rest hlead hkey =>
      cases hv : lookup key with
      | none =>
        exact Or.inr ⟨_, .unknown (splitsInto_literal hlead) (known_literal _) hkey hv⟩
      | some v =>
        have hshorter : rest.length < n := by
          simp only [List.length_append, List.length_cons] at hn
          omega
        rcases ih rest.length hshorter rest rfl with ⟨segments, hs, hk⟩ | ⟨f, hf⟩
        · have hall := (splitsInto_placeholder hlead hkey).append hs
          rw [List.append_assoc, List.cons_append, List.append_assoc, List.singleton_append] at hall
          exact Or.inl ⟨_, hall, (known_placeholder lead hv).append hk⟩
        · exact Or.inr ⟨f, hf.behind hlead hkey hv⟩

theorem render_of_splitsInto {segments : List Segment} (hs : SplitsInto s segments)
    (hk : Known lookup segments) : render lookup s = .ok (filled lookup segments) := by
  have h := render_segments hs hk []
  rw [List.append_nil, render_of_notMem List.not_mem_nil] at h
  simpa [Except.map] using h

theorem render_of_failsAt {f : Fault} (h : FailsAt lookup s f) : render lookup s = .error f := by
  cases h with
  | @unclosed front rest segments hs hk hrest =>
    have hhere : render lookup ([] ++ '{' :: rest) = .error .unclosed :=
      render_unclosed List.not_mem_nil hrest
    rw [render_segments hs hk, ← List.nil_append ('{' :: rest), hhere]
    rfl
  | @unknown front key rest segments hs hk hkey hnone =>
    have hhere := render_unknown List.not_mem_nil hkey hnone rest
    rw [render_segments hs hk, ← List.nil_append ('{' :: _), hhere]
    rfl

/-- **What a template is rendered as.** -/
theorem render_eq_ok_iff {r : List Char} :
    render lookup s = .ok r ↔
      ∃ segments, SplitsInto s segments ∧ Known lookup segments ∧ r = filled lookup segments := by
  constructor
  · intro h
    rcases splits_or_fails lookup s with ⟨segments, hs, hk⟩ | ⟨f, hf⟩
    · rw [render_of_splitsInto hs hk] at h
      exact ⟨segments, hs, hk, (Except.ok.inj h).symm⟩
    · rw [render_of_failsAt hf] at h
      cases h
  · rintro ⟨segments, hs, hk, rfl⟩
    exact render_of_splitsInto hs hk

example : render (fun key => if key = ['k'] then some "\x7bk\x7d\x7b".toList else none)
    "a\x7bk\x7d".toList = .ok "a\x7bk\x7d\x7b".toList := by
  decide +kernel

/-- **Which fault a template has.** -/
theorem render_eq_error_iff {f : Fault} : render lookup s = .error f ↔ FailsAt lookup s f := by
  refine ⟨fun h => ?_, render_of_failsAt⟩
  rcases splits_or_fails lookup s with ⟨segments, hs, hk⟩ | ⟨f', hf⟩
  · rw [render_of_splitsInto hs hk] at h
    cases h
  · rw [render_of_failsAt hf] at h
    cases h
    exact hf

/-! ## The loop -/

/-- So many turns, with what has been written so far and what is left to be read. -/
def loop (lookup : List Char → Option (List Char)) :
    (turns : Nat) → (out rest : List Char) → Option (Except Fault (List Char))
  | 0, _, _ => none
  | turns + 1, out, rest =>
    match cut '{' rest with
    | none => some (.ok (out ++ rest))
    | some (lead, after) =>
      match cut '}' after with
      | none => some (.error .unclosed)
      | some (key, rest) =>
        match lookup key with
        | none => some (.error (.unknown (String.ofList key)))
        | some v => loop lookup turns (out ++ (lead ++ v)) rest

/-- Each turn but the last uses up a brace that opens, and what is written stays in front. -/
theorem loop_eq_render {turns : Nat} (h : s.count '{' < turns) (out : List Char) :
    loop lookup turns out s = some ((render lookup s).map (out ++ ·)) := by
  induction turns generalizing out s with
  | zero => exact absurd h (Nat.not_lt_zero _)
  | succ turns ih =>
    cases onset s with
    | plain hs => simp only [loop, cut_eq_none_iff.mpr hs, render_of_notMem hs, Except.map]
    | unclosed hlead hrest =>
      simp only [loop, cut_append hlead, cut_eq_none_iff.mpr hrest, render_unclosed hlead hrest,
        Except.map]
    | @keyed lead key rest hlead hkey =>
      cases hv : lookup key with
      | none =>
        simp only [loop, cut_append hlead, cut_append hkey, hv, render_unknown hlead hkey hv,
          Except.map]
      | some v =>
        have hfewer : rest.count '{' < turns := by
          simp only [List.count_append, List.count_cons, beq_self_eq_true, if_true] at h
          omega
        simp only [loop, cut_append hlead, cut_append hkey, hv,
          render_placeholder hlead hkey hv, ih hfewer]
        cases render lookup rest <;> simp [Except.map]

end Template

/-! ## Layouts -/

namespace Layout

theorem relativePath_eq_template_iff {y : Layout} {l : Locator} {digest : Checksum}
    {template : String} {f : Template.Fault} :
    y.relativePath l digest = .error (.template template f) ↔
      y.template = template ∧ Template.render (placeholder? l digest) y.template.toList = .error f := by
  unfold relativePath
  split
  · rename_i f' hf
    simp [hf]
  · rename_i s hs
    split <;> simp [hs]

end Layout

namespace Template

/-- **Rendering is one pass of substitution.** A template is rendered exactly if it is cut into
segments with known keys, and then as their values; else the fault is the one at the first place
where it cannot be read on, and it is the fault of a layout with this template. The loop ends after
one turn more than there are braces that open. -/
theorem render_single_pass (lookup : List Char → Option (List Char)) (s : List Char) :
    (∀ r, render lookup s = .ok r ↔
      ∃ segments, SplitsInto s segments ∧ Known lookup segments ∧ r = filled lookup segments) ∧
    (∀ f, render lookup s = .error f ↔ FailsAt lookup s f) ∧
    loop lookup (s.count '{' + 1) [] s = some (render lookup s) ∧
    ∀ (y : Layout) (l : Locator) (digest : Checksum) (template : String) (f : Fault),
      y.relativePath l digest = .error (.template template f) ↔
        y.template = template ∧ FailsAt (Layout.placeholder? l digest) y.template.toList f := by
  refine ⟨fun r => render_eq_ok_iff, fun f => render_eq_error_iff, ?loop, fun y l digest t f => ?layout⟩
  case loop =>
    rw [loop_eq_render (Nat.lt_succ_self _)]
    cases render lookup s <;> rfl
  case layout => rw [Layout.relativePath_eq_template_iff, render_eq_error_iff]

end Template

end OfflineCache
