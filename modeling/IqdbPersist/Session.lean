import IqdbPersist.Loading

/-!
# Sessions

A session opens an index in log mode and then calls its methods, or drops it and loads it again.
A label says what a call came to; from the labels alone one can tell which records the log holds,
and behind which bytes they stand.
-/

namespace IqdbPersist

open CrashLogic FileSystem LogState Simulation

variable {ε M I : Type} (b : Build M) (T : IndexType ε M I)

namespace PersistedIndex

/-- What a call came to. -/
inductive Label (M I : Type) where
  /-- The mutation returned `Ok`. -/
  | accepted (r : WalRecord M)
  /-- The mutation returned an error. -/
  | refused (r : WalRecord M)
  /-- The index was checkpointed under this configuration. -/
  | checkpointed (config : PersistConfig) (x : I)
  | saved
  /-- `save` or `checkpoint` returned an error. -/
  | declined
  /-- The index was changed through `index_mut`, past the log. -/
  | bypassed
  /-- The index was dropped and loaded again. -/
  | reopened (config : PersistConfig)

/-- One call, in which no file operation failed. -/
inductive Step : Session I → Label M I → Session I → Prop where
  | accepted {s s' : Session I} {r : WalRecord M} (hcall : mutation b T r s = .ok () s') :
      Step s (.accepted r) s'
  | refused {s s' : Session I} {r : WalRecord M} {e : PersistError ε}
      (hcall : mutation b T r s = .error (.failed e) s') (he : ¬ e.IsIo) : Step s (.refused r) s'
  | checkpointed {s s' : Session I} (hcall : checkpoint b T s = .ok () s') :
      Step s (.checkpointed s.1.config s.1.inner) s'
  | saved {s s' : Session I} (hcall : save b T s = .ok () s') : Step s .saved s'
  | declined {s s' : Session I} {e : PersistError ε}
      (hcall : save b T s = .error (.failed e) s' ∨ checkpoint b T s = .error (.failed e) s')
      (he : ¬ e.IsIo) : Step s .declined s'
  | bypassed {s : Session I} (x : I) : Step s .bypassed ({ s.1 with inner := x }, s.2)
  | reopened {s : Session I} {this : PersistedIndex I} {w : World Path} {config : PersistConfig}
      (hpath : config.path = s.1.config.path) (hwal : config.walEnabled = true)
      (hcall : load b T config s.2 = .ok this w) : Step s (.reopened config) (this, w)

/-- The session right after `open_with` in log mode, in a world where nothing fails. -/
structure Started (config : PersistConfig) (x : I) (s : Session I) : Prop where
  walEnabled : config.walEnabled = true
  opened : ∃ w, w.Calm ∧ openWith b T x config w = .ok s.1 s.2

/-- What the call does to the log. -/
def Label.change : Label M I → Journal.Change (WalRecord M)
  | .accepted r => .commit r
  | .checkpointed _ _ => .fold
  | .refused _ | .saved | .declined | .bypassed | .reopened _ => .idle

theorem fold_mem_change_iff {M I : Type} {ls : List (Label M I)} :
    .fold ∈ ls.map Label.change ↔ ∃ config x, Label.checkpointed config x ∈ ls := by
  rw [List.mem_map]
  constructor
  · rintro ⟨l, hl, hfold⟩
    cases l with
    | checkpointed config x => exact ⟨config, x, hl⟩
    | _ => cases hfold
  · rintro ⟨config, x, hl⟩
    exact ⟨_, hl, rfl⟩

theorem commit_mem_change_iff {M I : Type} {ls : List (Label M I)} {r : WalRecord M} :
    .commit r ∈ ls.map Label.change ↔ Label.accepted r ∈ ls := by
  rw [List.mem_map]
  constructor
  · rintro ⟨l, hl, hcommit⟩
    cases l with
    | accepted r' =>
      cases hcommit
      exact hl
    | _ => cases hcommit
  · exact fun hl => ⟨_, hl, rfl⟩

/-- The mutations that returned `Ok` since the last reset of the log. -/
def loggedBy (ls : List (Label M I)) : List (WalRecord M) :=
  (ls.map Label.change).foldl Journal.Change.after []

/-- What the log starts with, when it started with `base` and a reset may have come since. -/
def baseAfter (base : Bytes) : Journal.Change (WalRecord M) → Bytes
  | .fold => walHeader
  | .commit _ | .idle => base

theorem foldl_baseAfter_walHeader (cs : List (Journal.Change (WalRecord M))) :
    cs.foldl baseAfter walHeader = walHeader := by
  induction cs with
  | nil => rfl
  | cons c cs ih => cases c <;> exact ih

theorem foldl_baseAfter_of_fold {cs : List (Journal.Change (WalRecord M))} (h : .fold ∈ cs)
    (base : Bytes) : cs.foldl baseAfter base = walHeader := by
  induction cs generalizing base with
  | nil => cases h
  | cons c cs ih =>
    rcases List.mem_cons.mp h with rfl | h
    · exact foldl_baseAfter_walHeader cs
    · exact ih h _

theorem foldl_baseAfter_of_not_fold {cs : List (Journal.Change (WalRecord M))} (h : .fold ∉ cs)
    (base : Bytes) : cs.foldl baseAfter base = base := by
  induction cs with
  | nil => rfl
  | cons c cs ih =>
    obtain ⟨hc, hcs⟩ := not_or.mp (mt List.mem_cons.mpr h)
    cases c with
    | fold => exact absurd rfl hc
    | commit r => exact ih hcs
    | idle => exact ih hcs

end PersistedIndex

end IqdbPersist
