import OfflineCache.Proofs.Run.Ending

/-! What is delivered under a lock. Whoever puts a file in place keeps its path locked, and paths that lead
to one place are locked by one lock. So from the moment an artifact is delivered until its path is let
go, a file with its digest is there (`Run.InPlace`). -/

namespace OfflineCache

open FileTree Replacement

/-! ## Locked paths -/

/-- What has been delivered and is still locked was locked before the step. -/
theorem Storing.lock?_of_delivered? {s : Store} {l : Locator} {a : Artifact} {m : Option Mishap}
    {w : World} {st : Storing} {e : CacheEntry} (hd : st.delivered? = some e) {c : Lock}
    (hc : (st.step s l a m w).2.lock? = some c) : st.lock? = some c := by
  cases st with
  | replacing e tmp r =>
    obtain ⟨rfl, -⟩ := of_delivered?_replacing hd
    exact hc
  | unlocking e r => cases hc
  | done r => cases hc
  | _ => cases hd

/-- What is delivered stays so. -/
theorem Storing.delivered?_step {s : Store} {l : Locator} {a : Artifact} {m : Option Mishap}
    {w : World} {st : Storing} {e : CacheEntry} (h : st.delivered? = some e) :
    (st.step s l a m w).2.delivered? = some e := by
  cases st with
  | replacing e tmp r =>
    obtain ⟨rfl, -⟩ := of_delivered?_replacing h
    exact h
  | unlocking e r => cases r <;> exact h
  | done r => exact h
  | _ => cases h

/-- The lock is that of the entry's path. -/
theorem Storing.lock?_eq {st : Storing} {e : CacheEntry} (he : st.known? = some e) {c : Lock}
    (hc : st.lock? = some c) : st.lock? = some e.path.components := by
  cases st with
  | starting => cases hc
  | locking e' => cases hc
  | done r => cases hc
  | _ =>
    obtain rfl := Option.some.inj he
    rfl

namespace Worker

variable {p : Workplace} {l : Locator} {m : Option Mishap} {w : World} {k : Worker}

theorem lock?_of_replacing? {a : Artifact} {e : CacheEntry} {tmp : Path} {st : Replacement}
    (h : k.replacing? = some (a, e, tmp, st)) : k.lock? = some e.path.components := by
  obtain ⟨rfl, -⟩ := replacing?_eq_some_iff.mp h
  rfl

/-- A worker that has come further than the start of its storing was storing before. -/
theorem storing_of_step {a : Artifact} {st' : Storing} (h : (k.step p l m w).2 = .storing a st')
    (hst : st' ≠ .starting) : ∃ st, k = .storing a st ∧ (∀ r, st ≠ .done r) ∧
      k.step p l m w = ((st.step p.store l a m w).1, .storing a (st.step p.store l a m w).2) := by
  cases k using stages with
  | waiting =>
    simp only [step] at h
    split at h <;> cases h
  | fetching s hs =>
    rw [step_fetching p l m w hs] at h
    cases h
  | fetched a' =>
    cases h
    exact absurd rfl hst
  | failed e =>
    simp only [step, afterFailure] at h
    split at h <;> cases h
  | storing a' st hs =>
    have hstep := step_storing p l m w a' hs
    rw [hstep] at h
    obtain ⟨rfl, -⟩ := Worker.storing.inj h
    exact ⟨st, rfl, hs, hstep⟩
  | stored a' r => cases r <;> cases h
  | finished o => cases h

end Worker

namespace Run

variable {p : Workplace} {w : World} {r : Run}

/-- What is delivered and still locked is at its path, and has its digest. -/
def InPlace (r : Run) : Prop :=
  ∀ i l a st e c, r.worker? i = some (l, .storing a st) → st.delivered? = some e →
    st.lock? = some c →
    ∃ q b x, r.world.files.find e.path = .ok (q, .file b x) ∧ a.digest.accepts b = true

/-- What a step delivers is at its path, and has its digest. -/
theorem Orderly.inPlace_step (h : Orderly p w r) (hf : LinkFree w.files p.store.root)
    (hin : r.InPlace) {i : Nat} {l : Locator} {k : Worker} (hk : r.worker? i = some (l, k))
    (x : Option Mishap) {a : Artifact} {st' : Storing} {e : CacheEntry} {c : Lock}
    (hstep : (k.step p l x r.world).2 = .storing a st') (hd : st'.delivered? = some e)
    (hc : st'.lock? = some c) :
    ∃ q b y, (k.step p l x r.world).1.files.find e.path = .ok (q, .file b y) ∧
      a.digest.accepts b = true := by
  obtain ⟨st, rfl, hst, heq⟩ := Worker.storing_of_step hstep fun he => by simp [he, Storing.lock?] at hc
  rw [heq] at hstep ⊢
  obtain ⟨-, hst'⟩ := Worker.storing.inj hstep
  have hold : st.delivered? = some e → (st.step p.store l a x r.world).2.lock? = some c →
      st.lock? = some c := fun hd hc => Storing.lock?_of_delivered? hd hc
  have hchange := Storing.change_step p.store l a x r.world st
  revert hchange hold
  rw [hst']
  simp only
  generalize (st.step p.store l a x r.world).1 = w'
  intro hold hchange
  cases hchange with
  | quiet hfiles _ _ _ hsame _ =>
    rw [hfiles]
    exact hin i l a st e c hk (hsame ▸ hd) (hold (hsame ▸ hd) hc)
  | matched hfiles _ hb ha =>
    cases hd
    obtain ⟨q, y, hfind⟩ := readBytes_eq_ok_iff.mp hb
    exact ⟨q, _, y, by rw [hfiles, hfind], ha⟩
  | begun => cases hd
  | @staged e' tmp rep hrep =>
    obtain ⟨hdone, rfl⟩ := Storing.of_delivered?_replacing hd
    obtain ⟨q, y, hfind⟩ := h.find_of_replaced hf hk hrep hdone
    exact ⟨q, a.bytes, y, hfind, (h.honest i l _ hk).1.accepts⟩

/-- Another worker's move leaves the file at a locked path alone. -/
theorem Orderly.find_move (h : Orderly p w r) (hf : LinkFree w.files p.store.root)
    (hlocks : Locks r.world.locked r.lock?) {i : Nat} {l : Locator} {k : Worker}
    (hk : r.worker? i = some (l, k)) {digest : Checksum} {e : CacheEntry}
    (he : p.store.entry l digest = .ok e) (hlock : k.lock? = some e.path.components)
    (hname : ∀ n c, e.path.fileName? ≠ some (temporaryName n w.process c)) {m : Move}
    (hm : ∀ x, m ≠ .work i x) {q : Place} {b : Bytes} {y : Bool}
    (hfind : r.world.files.find e.path = .ok (q, .file b y)) :
    (r.move p m).world.files.find e.path = .ok (q, .file b y) := by
  have htended := h.tended_move hf m
  have hq := node?_of_find hfind
  refine find_tended hfind htended ?_
  rcases h.touched_of_move hf m q with (hsame | ⟨hnone, -⟩) | ht
  · rw [hsame, hq]
  · rw [hnone] at hq
    cases hq
  · rcases ht.temporary_or with
      ⟨n, c, hlast⟩ | ⟨j, x, l', k', a, e', b', rfl, hk', hd, hfind', tmp, hr⟩
    · rw [Store.getLast?_of_find he (hf.tended h.tended) hfind] at hlast
      exact absurd hlast (hname n c)
    · -- the other worker has locked its own path, which leads to another place
      have hfind'' := find_tended hfind htended (node?_of_find hfind')
      have hsame := Store.components_eq_of_find he hd.entry
        (hf.tended (h.tended.trans htended)) hfind'' hfind'
      refine absurd (hlocks.apart i j e.path.components ?_ ?_) fun hij => hm x (by rw [hij])
      · rw [lock?, hk]
        exact hlock
      · rw [lock?, hk', hsame]
        exact Worker.lock?_of_replacing? hr

theorem InPlace.move (hin : r.InPlace) (h : Orderly p w r) (hf : LinkFree w.files p.store.root)
    (hlocks : Locks r.world.locked r.lock?) (hfresh : Fresh w.process r) (m : Move) :
    (r.move p m).InPlace := by
  -- a worker that does not move keeps what it has delivered
  have hother : ∀ i l a st e c, r.worker? i = some (l, .storing a st) → (∀ x, m ≠ .work i x) →
      st.delivered? = some e → st.lock? = some c → ∃ q b x,
        (r.move p m).world.files.find e.path = .ok (q, .file b x) ∧ a.digest.accepts b = true := by
    intro i l a st e c hk hm hd hc
    obtain ⟨q, b, x, hfind, hb⟩ := hin i l a st e c hk hd hc
    have hentry := (h.honest i l _ hk).2 e (Storing.known?_of_delivered? hd)
    have hname := hfresh i l _ e.path e.digest.render hk
      (by simp [Worker.delivered?, hd])
    exact ⟨q, b, x, h.find_move hf hlocks hk hentry
      (Storing.lock?_eq (Storing.known?_of_delivered? hd) hc) hname hm hfind, hb⟩
  intro i l a st e c hk' hd hc
  rcases worker_of_move hk' with ⟨hk, hm⟩ | ⟨x, k, rfl, hk, hworld, hst⟩
  · exact hother i l a st e c hk hm hd hc
  · rw [hworld]
    exact h.inPlace_step hf hin hk x hst.symm hd hc

end Run

end OfflineCache
