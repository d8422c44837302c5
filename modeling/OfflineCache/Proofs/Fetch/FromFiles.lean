import OfflineCache.Fetch.Basic

/-! Fetching from the project's own files: two steps, and no request. -/

namespace OfflineCache.Fetching

theorem steps_done (f : Fetcher) (t : Transport) (l : Locator) (n : Nat) (w : World)
    (r : Except Fetch.Error Artifact) : steps f t l n w (.done r) = (w, .done r) := by
  cases n <;> rfl

/-- What the fetching of a file reference answers: the refusal of a path that leaves the root, the
fault of the reading, or the bytes that were read if their checksum is right. -/
theorem run_of_file {l : Locator} (h : l.protocol = .file) (f : Fetcher) (t : Transport)
    (w : World) :
    (run f t l w).2 =
      match Containment.contained? w.files l f.root with
      | none => .error (.unsupported l.render .pathEscape)
      | some p =>
        match w.files.readBytes p with
        | .error fault => .error (.io p fault)
        | .ok b => (Fetcher.verify l b).map fun d => ⟨b, d, 1⟩ := by
  simp only [run, stepsLeft, steps, step, begin, Fetcher.source, h]
  cases Containment.contained? w.files l f.root with
  | none =>
    simp only [steps_done]
    rfl
  | some p =>
    cases hb : w.files.readBytes p with
    | error fault => simp only [hb, steps_done]
    | ok b =>
      simp only [hb, steps, step]
      cases Fetcher.verify l b with
      | error e => simp only [steps_done, Except.map]
      | ok d => simp only [steps_done, Except.map]

/-- Fetched bytes were read at the target of the reference. -/
theorem readBytes_of_run {f : Fetcher} {t : Transport} {l : Locator} {w : World} {a : Artifact}
    (h : l.protocol = .file) (ha : (run f t l w).2 = .ok a) :
    ∃ target, Containment.contained? w.files l f.root = some target ∧
      w.files.readBytes target = .ok a.bytes := by
  rw [run_of_file h] at ha
  cases hc : Containment.contained? w.files l f.root with
  | none =>
    rw [hc] at ha
    cases ha
  | some target =>
    simp only [hc] at ha
    refine ⟨target, rfl, ?_⟩
    cases hb : w.files.readBytes target with
    | error fault =>
      rw [hb] at ha
      cases ha
    | ok b =>
      simp only [hb] at ha
      cases hv : Fetcher.verify l b with
      | error e =>
        rw [hv] at ha
        cases ha
      | ok d =>
        rw [hv] at ha
        cases ha
        rfl

/-- Without a checksum to meet, whatever is read is fetched. -/
theorem run_of_readBytes {f : Fetcher} {l : Locator} {w : World} {target : Path} {b : Bytes}
    (h : l.protocol = .file) (hn : l.checksum = none)
    (hc : Containment.contained? w.files l f.root = some target)
    (hb : w.files.readBytes target = .ok b) (t : Transport) :
    (run f t l w).2 = .ok ⟨b, .compute .sha512 b, 1⟩ := by
  rw [run_of_file h]
  simp only [hc, hb, Fetcher.verify, hn, Except.map]

end OfflineCache.Fetching
