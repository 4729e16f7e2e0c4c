import IqdbPersist.Journal
import IqdbPersist.Wal

/-!
# Replaying the log

`replay` applies the records of the log file to an index, in order, and gives up at the first that
does not fit the dimension or that the index rejects. On an index that checks dimensions itself
this is the replay of a journal whose changes are the mutations the index accepts.
-/

namespace IqdbPersist

open CrashLogic FileSystem

variable {ε M I : Type} (b : Build M) (T : IndexType ε M I)

/-- A mutation of the index, reported as the crate reports it. -/
def onIndex (apply : I → Except ε Unit × I) : EStateM (PersistError ε) I Unit := fun x =>
  match apply x with
  | (.ok (), x') => .ok () x'
  | (.error e, x') => .error (.indexBuild e) x'

def applyRecord : WalRecord M → EStateM (PersistError ε) I Unit
  | .insert id vector metadata => do
    ensure (vector.length = T.dim (← get))
      (.invalidPayload "WAL insert vector dimension disagrees with the index")
    onIndex (T.insert id vector metadata)
  | .delete id => onIndex (T.delete id)

/-- The loop of `replay`, with the number of records applied so far. -/
def applyRecords (applied : ℕ) : List (WalRecord M) → EStateM (PersistError ε) I ℕ
  | [] => pure applied
  | r :: rs => do
    applyRecord T r
    applyRecords (applied + 1) rs

def replay (snapshot : Path) : EStateM (Halt (PersistError ε)) (I × World Path) ℕ := do
  let path := walPath snapshot
  let found ← within Prod.snd (fun w s => (s.1, w))
    (onFailure (some <$> readFile path) fun source =>
      if source = .notFound then pure none else throw (.failed (.io path source)))
  match found with
  | none => pure 0
  | some bytes => do
    let records ← uninterrupted (settle (parseRecords b bytes))
    uninterrupted (within Prod.fst (fun x s => (x, s.2)) (applyRecords T 0 records))

/-- The mutations that the bare index accepts, as changes of a journal. -/
def IndexType.change (r : WalRecord M) (x : I) : Option I :=
  match T.apply r x with
  | (.ok (), x') => some x'
  | (.error _, _) => none

section Apply

variable {T} {r : WalRecord M} {x : I}

theorem IndexType.change_of_accepts (h : T.Accepts r x) :
    T.change r x = some (T.apply r x).2 := by
  unfold IndexType.change
  unfold IndexType.Accepts at h
  split
  · rename_i heq
    rw [heq]
  · rename_i heq
    rw [heq] at h
    cases h

theorem IndexType.change_of_rejects (h : ¬ T.Accepts r x) : T.change r x = none := by
  unfold IndexType.change
  unfold IndexType.Accepts at h
  split
  · rename_i heq
    rw [heq] at h
    exact absurd rfl h
  · rfl

theorem ends_onIndex (apply : I → Except ε Unit × I) :
    Ends (onIndex apply) x (fun _ x' => apply x = (.ok (), x'))
      (fun e x' => ∃ source, e = .indexBuild source ∧ apply x = (.error source, x')) := by
  unfold Ends onIndex
  rcases h : apply x with ⟨_ | _, x'⟩
  · exact ⟨_, rfl, rfl⟩
  · exact rfl

theorem ends_applyRecord (r : WalRecord M) :
    Ends (applyRecord T r) x (fun _ x' => T.change r x = some x')
      (fun e _ => (T.ChecksDim → T.change r x = none) ∧ ¬ e.IsIo) := by
  cases r with
  | delete id =>
    refine (ends_onIndex (T.delete id)).mono ?_ ?_
    · intro _ x' h
      simp only [IndexType.change, IndexType.apply, h]
    · rintro _ x' ⟨source, rfl, h⟩
      exact ⟨fun _ => by simp only [IndexType.change, IndexType.apply, h], fun hio => hio⟩
  | insert id vector metadata =>
    rw [applyRecord, ends_bind, ends_get, ends_bind, ends_ensure]
    constructor
    · intro _
      refine (ends_onIndex (T.insert id vector metadata)).mono ?_ ?_
      · intro _ x' h
        simp only [IndexType.change, IndexType.apply, h]
      · rintro _ x' ⟨source, rfl, h⟩
        exact ⟨fun _ => by simp only [IndexType.change, IndexType.apply, h], fun hio => hio⟩
    · intro hne
      refine ⟨fun hdim => IndexType.change_of_rejects fun h => hne ?_, fun hio => hio⟩
      exact hdim _ _ _ _ h

theorem ends_applyRecords (rs : List (WalRecord M)) (applied : ℕ) :
    Ends (applyRecords T applied rs) x
      (fun n x' => n = applied + rs.length ∧ Journal.replay T.change rs x = some x')
      (fun e _ => (T.ChecksDim → Journal.replay T.change rs x = none) ∧ ¬ e.IsIo) := by
  induction rs generalizing x applied with
  | nil => exact ⟨rfl, rfl⟩
  | cons r rs ih =>
    rw [applyRecords, ends_bind]
    refine (ends_applyRecord r).mono ?_ ?_
    · intro _ x₁ hx₁
      simp only [Journal.replay, hx₁, Option.bind_some]
      refine (ih (applied + 1)).mono ?_ fun _ _ h => h
      rintro n x' ⟨rfl, h⟩
      exact ⟨by rw [List.length_cons]; omega, h⟩
    · rintro e _ ⟨hnone, he⟩
      exact ⟨fun hdim => by rw [Journal.replay, hnone hdim, Option.bind_none], he⟩

theorem ends_replay {b : Build M} {snapshot : Path} {w : World Path} (hcalm : w.Calm)
    {bytes : Bytes} (hbytes : w.files (walPath snapshot) = some bytes) :
    Ends (replay b T snapshot) (x, w)
      (fun _ s => s.2 = w.next ∧ ∃ rs, parseRecords b bytes = (.ok rs : Except (PersistError ε) _) ∧
        Journal.replay T.change rs x = some s.1)
      (fun _ _ => T.ChecksDim → ∀ rs,
        parseRecords b bytes = (.ok rs : Except (PersistError ε) _) →
          Journal.replay T.change rs x = none) := by
  simp only [replay, readFile, ends_bind, ends_within, ends_onFailure, ends_map, ends_observe,
    hcalm.verdict, hbytes, ends_uninterrupted]
  cases hparse : parseRecords (ε := ε) b bytes with
  | error e =>
    rintro - rs ⟨⟩
  | ok rs =>
    refine (ends_applyRecords rs 0).mono ?_ ?_
    · rintro n x' ⟨-, h⟩
      exact ⟨rfl, rs, rfl, h⟩
    · rintro e x' ⟨h, -⟩ hdim _ ⟨⟩
      exact h hdim

end Apply

end IqdbPersist
