import IqdbPersist.CrashLogic
import IqdbPersist.LittleEndian
import Mathlib.Tactic.Common

/-!
# Reading byte strings through a cursor

A reader is a program over a byte string and a position in it. `Consumes` says that a program reads
exactly a given piece, wherever the piece stands and whatever follows it, so that readers compose
like the concatenation of what they read. The limit is a bound on positions, for machines on which
a position can overflow.
-/

namespace ByteReader

open CrashLogic

variable {ε α β : Type}

structure Cursor where
  bytes : Bytes
  pos : ℕ

namespace Cursor

def rest (c : Cursor) : Bytes := c.bytes.drop c.pos

/-- The next `n` bytes and the cursor behind them, if there are that many. -/
def split (c : Cursor) (n : ℕ) : Option (Bytes × Cursor) :=
  if c.pos + n ≤ c.bytes.length then some (c.rest.take n, ⟨c.bytes, c.pos + n⟩) else none

end Cursor

/-- `p` reads exactly `bs` and returns `a`. -/
def Consumes (limit : ℕ) (p : EStateM ε Cursor α) (bs : Bytes) (a : α) : Prop :=
  ∀ pre post : Bytes, (pre ++ bs).length ≤ limit →
    p ⟨pre ++ (bs ++ post), pre.length⟩ = .ok a ⟨pre ++ (bs ++ post), (pre ++ bs).length⟩

/-- From the first cursor to the second, `bs` has been read. -/
structure Reads (c : Cursor) (bs : Bytes) (c' : Cursor) : Prop where
  bytes : c'.bytes = c.bytes
  rest : c.rest = bs ++ c'.rest
  pos : c'.pos = c.pos + bs.length

/-- Run `p` a number of times. -/
def times (p : EStateM ε Cursor α) : ℕ → EStateM ε Cursor (List α)
  | 0 => pure []
  | n + 1 => do
    let a ← p
    let as ← times p n
    pure (a :: as)

theorem split_append (pre bs post : Bytes) :
    Cursor.split ⟨pre ++ (bs ++ post), pre.length⟩ bs.length =
      some (bs, ⟨pre ++ (bs ++ post), (pre ++ bs).length⟩) := by
  simp [Cursor.split, Cursor.rest]

theorem Reads.refl (c : Cursor) : Reads c [] c := ⟨rfl, rfl, rfl⟩

theorem Reads.trans {c c' c'' : Cursor} {bs cs : Bytes} (h : Reads c bs c')
    (h' : Reads c' cs c'') : Reads c (bs ++ cs) c'' where
  bytes := h'.bytes.trans h.bytes
  rest := by rw [h.rest, h'.rest, List.append_assoc]
  pos := by rw [h'.pos, h.pos, List.length_append, Nat.add_assoc]

theorem Reads.bytes_eq {bytes bs : Bytes} {c : Cursor} (h : Reads ⟨bytes, 0⟩ bs c) :
    bytes = bs ++ bytes.drop bs.length ∧ c.pos = bs.length := by
  have hpos : c.pos = bs.length := by rw [h.pos, Nat.zero_add]
  have hrest : bytes = bs ++ c.rest := h.rest
  rw [Cursor.rest, h.bytes, hpos] at hrest
  exact ⟨hrest, hpos⟩

theorem reads_of_split {c c' : Cursor} {n : ℕ} {bs : Bytes} (h : c.split n = some (bs, c')) :
    bs.length = n ∧ Reads c bs c' := by
  unfold Cursor.split at h
  split at h
  · rename_i hle
    obtain ⟨rfl, rfl⟩ := Prod.mk.inj (Option.some.inj h)
    have hlen : (c.rest.take n).length = n := by
      rw [List.length_take, Cursor.rest, List.length_drop]
      omega
    refine ⟨hlen, rfl, ?_, by rw [hlen]⟩
    change c.rest = c.rest.take n ++ c.bytes.drop (c.pos + n)
    rw [← List.drop_drop, ← Cursor.rest, List.take_append_drop]
  · cases h

theorem split_of_short {c : Cursor} {n : ℕ} (h : c.bytes.length < c.pos + n) :
    c.split n = none := by
  simp only [Cursor.split, if_neg (Nat.not_le.mpr h)]

variable {limit : ℕ}

theorem consumes_pure (a : α) : Consumes limit (pure a : EStateM ε Cursor α) [] a := by
  intro pre post _
  simp only [List.append_nil, List.nil_append]
  rfl

theorem Consumes.bind {p : EStateM ε Cursor α} {f : α → EStateM ε Cursor β} {bs cs : Bytes} {a : α}
    {b : β} (hp : Consumes limit p bs a) (hf : Consumes limit (f a) cs b) :
    Consumes limit (p >>= f) (bs ++ cs) b := by
  intro pre post hl
  have hle : (pre ++ bs).length ≤ limit := by
    simp only [List.length_append] at hl ⊢
    omega
  have hp' := hp pre (cs ++ post) hle
  have hf' := hf (pre ++ bs) post (by simpa only [List.append_assoc] using hl)
  simp only [List.append_assoc] at hp' hf' ⊢
  change EStateM.bind p f _ = _
  simp only [EStateM.bind, hp', hf']

theorem Consumes.finish {p : EStateM ε Cursor α} {f : α → EStateM ε Cursor β} {bs : Bytes} {a : α}
    {b : β} (hp : Consumes limit p bs a) (hf : Consumes limit (f a) [] b) :
    Consumes limit (p >>= f) bs b := by
  simpa only [List.append_nil] using hp.bind hf

theorem Consumes.map {p : EStateM ε Cursor α} {bs : Bytes} {a : α} (f : α → β)
    (hp : Consumes limit p bs a) : Consumes limit (f <$> p) bs (f a) := by
  intro pre post hl
  change EStateM.map f p _ = _
  simp only [EStateM.map, hp pre post hl]

theorem Consumes.times {σ : Type} {p : EStateM ε Cursor α} {bytes : σ → Bytes} {value : σ → α}
    {pieces : List σ} (hp : ∀ s ∈ pieces, Consumes limit p (bytes s) (value s)) :
    Consumes limit (times p pieces.length) (pieces.flatMap bytes) (pieces.map value) := by
  induction pieces with
  | nil => exact consumes_pure []
  | cons s pieces ih =>
    have hrest := ih (fun t ht => hp t (List.mem_cons_of_mem s ht))
    have htail : Consumes limit (do
        let as ← ByteReader.times p pieces.length
        pure (value s :: as)) (pieces.flatMap bytes) (value s :: pieces.map value) :=
      hrest.finish (consumes_pure _)
    exact (hp s List.mem_cons_self).bind htail

theorem Consumes.run {p : EStateM ε Cursor α} {bs : Bytes} {a : α} (hp : Consumes limit p bs a)
    (hl : bs.length ≤ limit) (post : Bytes) :
    p ⟨bs ++ post, 0⟩ = .ok a ⟨bs ++ post, bs.length⟩ := hp [] post hl

theorem Consumes.unique {p : EStateM ε Cursor α} {bs bs' t t' : Bytes} {a a' : α}
    (hp : Consumes limit p bs a) (hp' : Consumes limit p bs' a') (hl : bs.length ≤ limit)
    (hl' : bs'.length ≤ limit) (h : bs ++ t = bs' ++ t') : a = a' ∧ bs = bs' ∧ t = t' := by
  have hrun := hp.run hl t
  have hrun' := hp'.run hl' t'
  rw [h, hrun'] at hrun
  injection hrun with ha hcursor
  injection hcursor with _ hlen
  exact ⟨ha.symm, List.append_inj h hlen.symm⟩

/-- `p` reads exactly `bs`, and of a strict beginning of `bs` it makes an error that `E` allows. -/
structure Demands (p : EStateM ε Cursor α) (bs : Bytes) (a : α) (E : ε → Prop) : Prop where
  consumes : ∀ limit, Consumes limit p bs a
  starves : ∀ (pre : Bytes) (n : ℕ), n < bs.length →
    Ends p ⟨pre ++ bs.take n, pre.length⟩ (fun _ _ => False) (fun e _ => E e)

section Demands

variable {E : ε → Prop}

theorem Demands.of_nil {p : EStateM ε Cursor α} {a : α} (h : ∀ limit, Consumes limit p [] a) :
    Demands p [] a E := ⟨h, fun _ _ hn => absurd hn (Nat.not_lt_zero _)⟩

theorem Demands.bind {p : EStateM ε Cursor α} {f : α → EStateM ε Cursor β} {bs cs : Bytes} {a : α}
    {b : β} (hp : Demands p bs a E) (hf : Demands (f a) cs b E) :
    Demands (p >>= f) (bs ++ cs) b E where
  consumes limit := (hp.consumes limit).bind (hf.consumes limit)
  starves pre n hn := by
    rw [ends_bind]
    by_cases hbs : n < bs.length
    · rw [List.take_append_of_le_length (Nat.le_of_lt hbs)]
      exact (hp.starves pre n hbs).mono (fun _ _ h => h.elim) fun _ _ h => h
    · obtain ⟨m, rfl⟩ := Nat.exists_eq_add_of_le (Nat.le_of_not_lt hbs)
      rw [List.length_append, Nat.add_lt_add_iff_left] at hn
      have hf' := hf.starves (pre ++ bs) m hn
      rw [List.append_assoc] at hf'
      rw [List.take_length_add_append, Ends, hp.consumes _ pre (cs.take m) (Nat.le_refl _)]
      exact hf'

theorem Demands.skip {p : EStateM ε Cursor α} {f : α → EStateM ε Cursor β} {bs : Bytes} {a : α}
    {b : β} (hp : Demands p [] a E) (hf : Demands (f a) bs b E) : Demands (p >>= f) bs b E :=
  hp.bind hf

theorem Demands.map {p : EStateM ε Cursor α} {bs : Bytes} {a : α} (f : α → β)
    (hp : Demands p bs a E) : Demands (f <$> p) bs (f a) E where
  consumes limit := (hp.consumes limit).map f
  starves pre n hn := by
    rw [ends_map]
    exact hp.starves pre n hn

end Demands

theorem ends_times {σ : Type} {p : EStateM ε Cursor α} {bytes : σ → Bytes} {value : σ → α}
    {Fits : σ → Prop} {E : ε → Cursor → Prop}
    (hp : ∀ c, Ends p c (fun a c' => ∃ s, Fits s ∧ a = value s ∧ Reads c (bytes s) c') E) (n : ℕ)
    (c : Cursor) :
    Ends (times p n) c (fun as c' => ∃ pieces : List σ, pieces.length = n ∧
      (∀ s ∈ pieces, Fits s) ∧ as = pieces.map value ∧ Reads c (pieces.flatMap bytes) c') E := by
  induction n generalizing c with
  | zero => exact ⟨[], rfl, List.forall_mem_nil _, rfl, Reads.refl c⟩
  | succ n ih =>
    rw [times, ends_bind]
    refine (hp c).mono ?_ fun _ _ h => h
    rintro _ c₁ ⟨s, hs, rfl, hreads⟩
    rw [ends_bind]
    refine (ih c₁).mono ?_ fun _ _ h => h
    rintro _ c₂ ⟨pieces, rfl, hpieces, rfl, hreads'⟩
    exact ⟨s :: pieces, rfl, List.forall_mem_cons.mpr ⟨hs, hpieces⟩, rfl, hreads.trans hreads'⟩

section Stable

/-- A run that succeeds does not look behind what it read: bytes appended there change nothing. -/
def Stable (p : EStateM ε Cursor α) : Prop :=
  ∀ (bytes post : Bytes) (pos : ℕ) (a : α) (c : Cursor), pos ≤ bytes.length →
    p ⟨bytes, pos⟩ = .ok a c →
      c.bytes = bytes ∧ c.pos ≤ bytes.length ∧
        p ⟨bytes ++ post, pos⟩ = .ok a ⟨bytes ++ post, c.pos⟩

theorem stable_pure (a : α) : Stable (pure a : EStateM ε Cursor α) := by
  rintro bytes post pos _ _ hpos ⟨⟩
  exact ⟨rfl, hpos, rfl⟩

theorem stable_throw (e : ε) : Stable (throw e : EStateM ε Cursor α) := by
  rintro bytes post pos _ _ - ⟨⟩

theorem Stable.bind {p : EStateM ε Cursor α} {f : α → EStateM ε Cursor β} (hp : Stable p)
    (hf : ∀ a, Stable (f a)) : Stable (p >>= f) := by
  intro bytes post pos b c hpos h
  change EStateM.bind p f _ = _ at h
  unfold EStateM.bind at h
  split at h
  · rename_i a c₁ hrun
    obtain ⟨rfl, hpos₁, hrun'⟩ := hp bytes post pos a c₁ hpos hrun
    obtain ⟨hbytes, hpos₂, hnext⟩ := hf a c₁.bytes post c₁.pos b c hpos₁ h
    refine ⟨hbytes, hpos₂, ?_⟩
    change EStateM.bind p f _ = _
    simp only [EStateM.bind, hrun', hnext]
  · cases h

theorem Stable.map {p : EStateM ε Cursor α} (hp : Stable p) (f : α → β) : Stable (f <$> p) := by
  have hbind := hp.bind fun a => stable_pure (ε := ε) (f a)
  exact hbind

theorem Stable.times {p : EStateM ε Cursor α} (hp : Stable p) (n : ℕ) : Stable (times p n) := by
  induction n with
  | zero => exact stable_pure []
  | succ n ih => exact hp.bind fun a => ih.bind fun as => stable_pure (a :: as)

theorem Stable.not_ok_take {p : EStateM ε Cursor α} (hp : Stable p) {bs : Bytes} {a : α}
    (hread : Consumes limit p bs a) (hl : bs.length ≤ limit) {n : ℕ} (hn : n < bs.length) (a' : α)
    (c : Cursor) : p ⟨bs.take n, 0⟩ ≠ .ok a' c := by
  intro hrun
  obtain ⟨-, hpos, hrun'⟩ := hp (bs.take n) (bs.drop n) 0 a' c (Nat.zero_le _) hrun
  have hall := hread.run hl []
  rw [List.append_nil] at hall
  rw [List.take_append_drop, hall] at hrun'
  injection hrun' with _ hcursor
  injection hcursor with _ hend
  rw [List.length_take] at hpos
  omega

end Stable

end ByteReader
