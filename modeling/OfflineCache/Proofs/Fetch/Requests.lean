import OfflineCache.Fetch.Basic

/-! The requests that the fetching of a locator makes. Each is for what the locator says and nothing
else: the address of its tarball, its reference, or its git source. One step makes at most one
request, and which one is settled when the fetching begins. -/

namespace OfflineCache

/-- The addresses of a tarball: the one a locator is bound to, or, without such a binding, that of
the exact version of the package asked of the registry. -/
inductive Fetcher.Address (registry : String) (l : Locator) : String → Prop
  | bound {text : String} : l.param? "__archiveUrl" = some text →
      Address registry l (String.ofList (Text.Percent.decode text.toList))
  | pinned {ident : Ident} {reference : String} {v : Version} :
      l.param? "__archiveUrl" = none → l.registryTarget? = some (ident, reference) →
      Locator.exactVersion? reference = some v →
      Address registry l
        s!"{registry}/{ident.render}/-/{ident.name}-{String.ofList v.render}.tgz"

/-- The requests that may be made for a locator. -/
inductive Fetcher.Asks (f : Fetcher) (l : Locator) : Request → Prop
  | registry {url : String} : l.protocol = .registry → f.tarballUrl l = .ok url →
      Address f.registry l url → Asks f l (.get url)
  | http : l.protocol = .http → Asks f l (.get l.reference)
  | git {url : String} {revision : Option String} : l.protocol = .git →
      l.gitSource? = some (url, revision) → Asks f l (.gitExport url revision)

namespace Fetcher

theorem address_of_tarballUrl {f : Fetcher} {l : Locator} {url : String}
    (h : f.tarballUrl l = .ok url) : Address f.registry l url := by
  unfold tarballUrl at h
  split at h
  · rename_i text hp
    cases h
    exact .bound hp
  · rename_i hp
    split at h
    · cases h
    · rename_i ident reference ht
      split at h
      · cases h
      · rename_i v hv
        cases h
        exact .pinned hp ht hv

theorem asks_of_source {f : Fetcher} {t : FileTree} {l : Locator} {url : String} {q : Request}
    (h : f.source t l = .ok (.remote url q)) : f.Asks l q := by
  unfold source at h
  split at h
  · rename_i hp
    cases hu : f.tarballUrl l with
    | error e =>
      rw [hu] at h
      cases h
    | ok url =>
      rw [hu] at h
      cases h
      exact .registry hp hu (address_of_tarballUrl hu)
  · rename_i hp
    cases h
    exact .http hp
  · rename_i hp
    split at h
    · rename_i hg
      cases h
      exact .git hp hg
    · cases h
  · split at h <;> cases h
  · cases h

/-- No slash is left at the end of the registry's address. -/
theorem getLast?_trimRegistry (s : String) : (trimRegistry s).toList.getLast? ≠ some '/' := by
  rw [trimRegistry, String.toList_ofList, List.getLast?_reverse]
  intro h
  have := List.head?_dropWhile_not (· = '/') s.toList.reverse
  rw [h] at this
  simp at this

end Fetcher

/-! ## The requests of one step -/

/-- The request that the next step makes. -/
def Fetching.request? : Fetching → Option Request
  | .retrying _ q (.calling _) => some q
  | _ => none

/-- What is retried is asked of the locator. -/
def Fetching.Asking (f : Fetcher) (l : Locator) : Fetching → Prop
  | .retrying _ q _ => f.Asks l q
  | _ => True

theorem Fetching.asks_of_request? {f : Fetcher} {l : Locator} {s : Fetching} {q : Request}
    (hs : s.Asking f l) (h : s.request? = some q) : f.Asks l q := by
  unfold request? at h
  split at h
  · cases h
    exact hs
  · cases h

theorem Retry.pause_calls (p : RetryPolicy) (target : String) (n : Nat)
    (r : Except Fetch.Error Bytes) (w : World) : (pause p target n r w).calls = w.calls := by
  unfold pause
  split <;> rfl

theorem Retry.step_calls (p : RetryPolicy) (t : Transport) (target : String) (q : Request)
    (w : World) (r : Retry) :
    (r.step p t target q w).1.calls =
      w.calls ++ (Fetching.retrying target q r).request?.toList := by
  cases r with
  | checking n =>
    simp only [step, Fetching.request?, Option.toList_none, List.append_nil]
    split <;> rfl
  | calling n =>
    simp only [step, pause_calls]
    rfl
  | done r => simp [step, Fetching.request?]

namespace Fetching

variable (f : Fetcher) (t : Transport) (l : Locator) (w : World)

/-- A step makes the request that is due and no other. -/
theorem step_calls (s : Fetching) : (s.step f t l w).1.calls = w.calls ++ s.request?.toList := by
  cases s with
  | starting => simp [step, request?]
  | retrying target q r =>
    cases r with
    | checking n => simp only [step, Retry.step_calls]
    | calling n => simp only [step, Retry.step_calls]
    | done r => cases r <;> simp [step, request?]
  | verifying b n =>
    simp only [step, request?, Option.toList_none, List.append_nil]
    split <;> rfl
  | done r => simp [step, request?]

theorem asking_begin (files : FileTree) : (begin f l files).Asking f l := by
  unfold begin
  split
  · trivial
  · rename_i h
    exact Fetcher.asks_of_source h
  · split <;> trivial

theorem step_asking {s : Fetching} (h : s.Asking f l) : (s.step f t l w).2.Asking f l := by
  cases s with
  | starting => exact asking_begin f l w.files
  | retrying target q r =>
    cases r with
    | checking n => exact h
    | calling n => exact h
    | done r => cases r <;> trivial
  | verifying b n =>
    simp only [step]
    split <;> trivial
  | done r => trivial

end Fetching

end OfflineCache
