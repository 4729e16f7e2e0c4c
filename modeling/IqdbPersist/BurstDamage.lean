import IqdbPersist.Bursts
import IqdbPersist.DamagedSnapshot
import IqdbPersist.FlippedLog
import IqdbPersist.OutlinedLife

/-!
# Files damaged by a burst

A file that loads does not load any more once a burst of up to 32 bits has hit its region, or its
header without making another version of it. A burst that begins in the body of a record of the
log, or is confined to its checksum, ends the log before that record and leaves those before it.
-/

namespace FramedLog

open BitFlip LittleEndian

variable {F : Format} {body rest new : Bytes} {j n : ℕ}

theorem exists_split {xs ys zs : Bytes} (hlen : zs.length = (xs ++ ys).length) :
    ∃ xs' ys', zs = xs' ++ ys' ∧ xs'.length = xs.length := by
  refine ⟨zs.take xs.length, zs.drop xs.length, (List.take_append_drop _ _).symm, ?_⟩
  rw [List.length_append] at hlen
  exact List.length_take_of_le (by omega)

theorem front_burst (hdetects : DetectsBursts 32 F.checksum) (hbody : body.length < 2 ^ 32)
    (hburst : Burst j n (frame F body ++ rest) new) (hn : n ≤ 32)
    (hj : j < 8 * (8 + body.length)) (hplace : 64 ≤ j ∨ 32 ≤ j ∧ j + n ≤ 64) :
    front F new = none := by
  rw [frame_append] at hburst
  have hlen : (encode 4 body.length).length = 4 := length_encode 4 _
  have hfield : (encode 4 (F.checksum body).toNat).length = 4 := length_encode 4 _
  have hannounced : decode (encode 4 body.length) = body.length := decode_encode_of_lt hbody
  obtain ⟨a, tail, rfl, ha⟩ := exists_split hburst.length
  obtain ⟨rfl, htail⟩ := hburst.right ha (by omega)
  obtain ⟨c, tail, rfl, hc⟩ := exists_split htail.length
  rw [front_fields F hlen (hc.trans hfield), hannounced, if_neg]
  rintro ⟨-, -, hcrc⟩
  by_cases hbehind : 64 ≤ j
  · -- the body is another one, and the checksum beside it is the old one
    obtain ⟨rfl, hrest⟩ := htail.right hc (by omega)
    obtain ⟨body', rest', rfl, hbody'⟩ := exists_split hrest.length
    have hleft := hrest.left hbody' (by omega)
    rw [List.take_left' hbody', decode_checksum, UInt32.toNat_inj] at hcrc
    exact hdetects _ _ _ _ hn hleft hcrc
  · -- the checksum is another one, and the body beside it is the old one
    have hleft := htail.left hc (by omega)
    rw [htail.right_eq hc (by omega), List.take_left, ← decode_checksum] at hcrc
    exact hleft.ne (decode_injective hc hcrc.symm)

end FramedLog

namespace IqdbPersist

open BitFlip CrashLogic FileSystem FramedLog LittleEndian Simulation

variable {ε M I : Type} {b : Build M} {T : IndexType ε M I}

section Snapshot

variable {old new : Bytes} {i n : ℕ} {x y : I}

theorem header_eq_of_restore {h h' : FileHeader} {tag tag' : UInt8} {region : Bytes}
    (hreadable : Readable ε b.host h tag) (hreadable' : Readable ε b.host h' tag')
    (htype : h'.indexType = h.indexType) (hversion : h'.version = h.version)
    (hrestore : restore b T h region = .ok x) (hrestore' : restore b T h' region = .ok y) :
    h' = h := by
  obtain ⟨hcrc, raw, hraw, hload, hdim, hmetric, hlen⟩ := restore_eq_ok_iff.mp hrestore
  obtain ⟨hcrc', raw', hraw', hload', hdim', hmetric', hlen'⟩ := restore_eq_ok_iff.mp hrestore'
  rw [hversion, hraw] at hraw'
  cases hraw'
  rw [hload] at hload'
  cases hload'
  have hmagic := hreadable.magic
  have hmagic' := hreadable'.magic
  cases h
  cases h'
  simp_all

/-- Damage by a burst on one side of the end of the header, which makes no other version of the
file, leaves nothing that decodes. -/
theorem decodeSnapshot_burst (hcrc : DetectsBursts 32 b.crc32)
    (hold : decodeSnapshot b T old = .ok x) (hburst : Burst i n old new) (hn : n ≤ 32)
    (hside : i + n ≤ 8 * (41 + (utf8 T.indexType).length) ∨
      8 * (41 + (utf8 T.indexType).length) ≤ i)
    (hversion : new[8]? = some 1 ∨ new[8]? = some 2 → new[8]? = old[8]?) (y : I) :
    decodeSnapshot b T new ≠ .ok y := by
  intro hnew
  obtain ⟨h, tag, region, hreadable, htype, rfl, hrestore⟩ := decodeSnapshot_eq_ok hold
  obtain ⟨h', tag', region', hreadable', htype', rfl, hrestore'⟩ := decodeSnapshot_eq_ok hnew
  have hlen : (headerBytes h tag).length = 41 + (utf8 T.indexType).length := by
    rw [length_headerBytes, htype]
  have hlen' : (headerBytes h' tag').length = (headerBytes h tag).length := by
    rw [length_headerBytes, length_headerBytes, htype, htype']
  rw [← hlen] at hside
  rcases hside with hbefore | hbehind
  · rw [hburst.right_eq hlen' hbefore] at hrestore' hburst
    have hninth (h : FileHeader) (tag : UInt8) (rest : Bytes) :
        (headerBytes h tag ++ rest)[8]? = some (UInt8.ofNat h.version.toNat) := by
      rw [List.getElem?_append_left (by rw [length_headerBytes]; omega), getElem?_headerBytes]
    rw [hninth, hninth] at hversion
    have hsame : h'.version = h.version := by
      rcases hreadable.version_cases with hv | hv <;>
        rcases hreadable'.version_cases with hv' | hv' <;> rw [hv, hv'] at hversion ⊢
      · exact absurd (hversion (.inr rfl)) (by decide)
      · exact absurd (hversion (.inl rfl)) (by decide)
    obtain rfl := header_eq_of_restore hreadable hreadable' (htype'.trans htype.symm) hsame
      hrestore hrestore'
    obtain rfl : tag = tag' := Except.ok.inj (hreadable.metric.symm.trans hreadable'.metric)
    exact hburst.ne rfl
  · obtain ⟨hheader, hregion⟩ := hburst.right hlen' hbehind
    rw [hheader, decodeSnapshot_headerBytes hreadable htype] at hnew
    apply hcrc _ _ _ _ hn hregion
    rw [(restore_eq_ok_iff.mp hrestore).1, (restore_eq_ok_iff.mp hnew).1]

end Snapshot

section Log

variable {rs pre post : List (WalRecord M)} {r : WalRecord M} {new : Bytes} {i n : ℕ}

theorem parseRecords_burst_header (hburst : Burst i n (logOf b rs) new) (hi : i < 96) :
    ∀ recs, parseRecords b new ≠ (.ok recs : Except (PersistError ε) _) := by
  intro recs hparse
  have hlength : new.length = (walHeader ++ recordFrames b rs).length := hburst.length
  obtain ⟨header, rest, rfl, hheader⟩ := exists_split hlength
  rw [length_walHeader] at hheader
  have hprefix := walHeader_prefix_of_parseRecords b hparse (by rw [List.length_append]; omega)
  obtain ⟨rest', hrest'⟩ := hprefix
  obtain ⟨rfl, -⟩ := List.append_inj hrest' hheader.symm
  exact (hburst.left rfl hi).ne rfl

/-- A burst in the checksum of a record, or from its body on, ends the log before the record. -/
theorem parseRecords_burst (hmd : b.metadata.Lawful) (hcrc : DetectsBursts 32 b.crc32)
    (h : ∀ r' ∈ pre ++ r :: post, Loggable b r')
    (hburst : Burst i n (logOf b (pre ++ r :: post)) new) (hn : n ≤ 32)
    (hbegin : 8 * ((logOf b pre).length + 4) ≤ i)
    (hend : i < 8 * (logOf b (pre ++ [r])).length)
    (hplace : 8 * ((logOf b pre).length + 8) ≤ i ∨ i + n ≤ 8 * ((logOf b pre).length + 8)) :
    parseRecords b new = (.ok pre : Except (PersistError ε) _) := by
  have hr : Loggable b r := h r (List.mem_append_right _ List.mem_cons_self)
  rw [logOf_snoc, List.length_append, length_frame] at hend
  rw [logOf_append] at hburst
  obtain ⟨log, tail, rfl, hlog⟩ := exists_split hburst.length
  obtain ⟨rfl, htail⟩ := hburst.right hlog (by omega)
  rw [recordFrames_cons] at htail
  refine parseRecords_logOf_append hmd (fun r' hr' => h r' (List.mem_append_left _ hr')) ?_
  exact front_burst hcrc hr.length_body htail hn (by omega) (by omega)

end Log

namespace PersistedIndex

variable {config config' : PersistConfig} {w u : World Path} {x y : I} {old new : Bytes} {i n : ℕ}

/-- Loading decodes the snapshot first, in either mode, and returns the error where it does not
decode. -/
theorem ends_load_decodes (hcalm : w.Calm) (hbytes : w.files config.path = some old) :
    Ends (load b T config) w (fun _ _ => ∃ base, decodeSnapshot b T old = .ok base)
      (fun e _ => (∀ base, decodeSnapshot b T old ≠ .ok base) → ∃ e', e = .failed e') := by
  rw [load, ends_bind, ends_uninterrupted]
  cases hvalid : validateConfig (ε := ε) b config with
  | error e => exact fun _ => ⟨e, rfl⟩
  | ok _ =>
    simp only [ends_bind, ends_uninterrupted, ends_settle_ok, ends_ioAt, readFile, ends_observe,
      hcalm.verdict, hbytes]
    cases hdecode : decodeSnapshot b T old with
    | error e => exact fun _ => ⟨e, rfl⟩
    | ok base =>
      rw [ends_settle_ok]
      unfold Ends
      split
      · exact ⟨base, rfl⟩
      · exact fun hnone => absurd rfl (hnone base)

/-- A file that loads, in either mode, is refused after a burst of up to 32 bits on one side of the
end of its header that makes no other version of it. -/
theorem refuses_burst (hcrc : DetectsBursts 32 b.crc32) (hpath : config'.path = config.path)
    (hloads : Recovers b T config w x) (hold : w.files config.path = some old)
    (hnew : u.files config.path = some new) (hburst : Burst i n old new) (hn : n ≤ 32)
    (hside : i + n ≤ 8 * (41 + (utf8 T.indexType).length) ∨
      8 * (41 + (utf8 T.indexType).length) ≤ i)
    (hversion : new[8]? = some 1 ∨ new[8]? = some 2 → new[8]? = old[8]?) :
    Refuses b T config' u := by
  obtain ⟨this, w', hload, -⟩ := hloads
  obtain ⟨base, hbase⟩ :=
    ends_of_ok (ends_load_decodes (w := w.withScript []) rfl hold) hload
  have hnone := decodeSnapshot_burst hcrc hbase hburst hn hside hversion
  have hfile : (u.withScript []).files config'.path = some new := by
    rw [hpath]
    exact hnew
  have hcalm : (u.withScript []).Calm := rfl
  have hends := ends_load_decodes (b := b) (T := T) hcalm hfile
  unfold Ends at hends
  split at hends
  · obtain ⟨base', hbase'⟩ := hends
    exact absurd hbase' (hnone base')
  · rename_i e w'' heq
    obtain ⟨e', rfl⟩ := hends hnone
    exact ⟨e', w'', heq⟩

def burstRegion : Bytes := regionBytes .none 8 (IdIndex.save [0xFFF8])

theorem burst_burstRegion : Burst 72 16 sampleRegion burstRegion :=
  ⟨by decide, by decide, by decide, by decide⟩

theorem refuses_burst_region : ∃ header : Bytes,
    Recovers defaultBuild idIndex plainConfig (worldOf (header ++ sampleRegion)) [7] ∧
      Refuses defaultBuild idIndex sampleConfig (worldOf (header ++ burstRegion)) := by
  obtain ⟨w', full, hsave, hfull, hregion⟩ := exists_plainSave
  obtain ⟨full', hbytes, hfull'⟩ := snapshotBytes_of_writeSnapshot hsave
  rw [hfull] at hfull'
  cases hfull'
  have hdecode := decodeSnapshot_snapshotBytes (idIndex_roundTrips [7]) (by decide)
    (sampleConfig_inverts [7]) hbytes
  have hlen : (full.take disguise.length).length = 44 := by
    have hle := length_header_le hbytes
    rw [List.length_take, disguise, length_headerBytes]
    exact Nat.min_eq_left hle
  refine ⟨full.take disguise.length, ?_⟩
  rw [← List.take_append_drop disguise.length full, hregion] at hdecode
  generalize full.take disguise.length = header at hdecode hlen ⊢
  have hloads : Recovers defaultBuild idIndex plainConfig (worldOf (header ++ sampleRegion)) [7] :=
    (recovers_iff_decodes rfl rfl [7]).mpr ⟨rfl, hdecode⟩
  have hbehind : 8 * (41 + (utf8 idIndex.indexType).length) ≤ 8 * header.length + 72 := by
    rw [hlen]
    decide
  have hversion : (header ++ burstRegion)[8]? = (header ++ sampleRegion)[8]? := by
    rw [List.getElem?_append_left (by omega), List.getElem?_append_left (by omega)]
  refine ⟨hloads, refuses_burst (u := worldOf (header ++ burstRegion)) Crc32.hash_detectsBursts
    ?_ hloads rfl rfl burst_burstRegion.append (by decide) (.inr hbehind) fun _ => hversion⟩
  rfl

/-- After any life that ends with a settled log, a burst of up to 32 bits in the log leaves no log
to load if it begins in the header of the log; if it begins in the body of a record, or is confined
to its checksum, exactly the records before that one are recovered. -/
theorem recovers_burst (hT : Contract b T) (hcrc : DetectsBursts 32 b.crc32) {path : Path}
    {o : Outline M I} {s s' : Machine I × Bool} (hstart : Pictures b T path o s)
    {is : List (Incident ε M I)} (hlife : Runs (Undergoes b T) s is s')
    (hfits : ∀ i ∈ is, i.Fits b T path) (hsettled : s'.2 = true) (hpath : config.path = path)
    (hwal : config.walEnabled = true)
    (hvalid : validateConfig b config = (.ok () : Except (PersistError ε) Unit))
    (hsnapshot : u.files path = s'.1.world.files path)
    (hold : s'.1.world.files (walPath path) = some old)
    (hnew : u.files (walPath path) = some new) (hburst : Burst i n old new) (hn : n ≤ 32) :
    ∃ o', Runs (Outline.Leads T) o is o' ∧ (i < 96 → ∀ y, ¬ Recovers b T config u y) ∧
      ∀ base pre r post, o'.snapshot = some base → o'.log = some (pre ++ r :: post) →
        8 * ((logOf b pre).length + 4) ≤ i → i < 8 * (logOf b (pre ++ [r])).length →
        (8 * ((logOf b pre).length + 8) ≤ i ∨ i + n ≤ 8 * ((logOf b pre).length + 8)) →
          ∀ y, Recovers b T config u y ↔ Journal.replay T.change pre base = some y := by
  subst hpath
  obtain ⟨o', hrun, hend⟩ := traces_of_runs hT hlife hfits hstart
  obtain ⟨⟨index, w⟩, settled⟩ := s'
  obtain rfl : settled = true := hsettled
  obtain ⟨rs, hrs, hreads⟩ := hend.log_of_bytes hold
  obtain rfl : old = logOf b rs := hreads.whole rfl
  refine ⟨o', hrun, ?_, ?_⟩
  · intro hheader y hrecovers
    obtain ⟨-, ⟨full, base, -, -, hreplays⟩, -⟩ := (recovers_iff_loads hwal).mp hrecovers
    rw [hnew] at hreplays
    obtain ⟨rs', n', hparse, -⟩ := hreplays
    exact parseRecords_burst_header hburst hheader rs' hparse
  · intro base pre r post hbase hpre hbegin hbefore hplace y
    obtain rfl : rs = pre ++ r :: post := Option.some.inj (hrs.symm.trans hpre)
    obtain ⟨full, hfull, hdecode⟩ := (hend.decodes_iff base).mp hbase
    rw [recovers_iff hT.checksDim hvalid hwal (hsnapshot.trans hfull) hnew]
    exact stands_iff hdecode
      (parseRecords_burst hT.metadata hcrc hreads.loggable hburst hn hbegin hbefore hplace) y

/-- The log of an insert and a delete, with the last byte of the delete changed. -/
def burstLog : Bytes := (logOf defaultBuild [sampleInsert, sampleDelete]).dropLast ++ [0xA5]

theorem burst_burstLog :
    Burst 448 8 (logOf defaultBuild [sampleInsert, sampleDelete]) burstLog :=
  ⟨by decide +kernel, by decide +kernel, by decide +kernel, by decide +kernel⟩

def deletedLife (this this' : PersistedIndex (List UInt64)) :
    List (Incident IdError (List (String × Value)) (List UInt64)) :=
  [.booted (.openWith [] sampleConfig) (.ok ()), .called this (.mutation sampleInsert) (.ok ()),
    .called this' (.mutation sampleDelete) (.ok ())]

theorem recovers_burst_delete : ∃ this this', ∃ s : Session (List UInt64), ∃ u : World Path,
    Runs (Undergoes defaultBuild idIndex) (⟨none, emptyWorld⟩, true) (deletedLife this this')
      (⟨some s.1, s.2⟩, true) ∧
    s.1.inner = [] ∧ Recovers defaultBuild idIndex sampleConfig u [7] := by
  obtain ⟨this, w, hopened⟩ : ∃ this w, (Boot.openWith [] sampleConfig).perform defaultBuild idIndex
      (emptyWorld.withScript []) = .ok this w := ⟨_, _, rfl⟩
  have hfirst : Undergoes defaultBuild idIndex (⟨none, emptyWorld⟩, true)
      (.booted (.openWith [] sampleConfig) (.ok ())) (⟨some this, w⟩, true) :=
    .opened [] (by simp) hopened
  have hempty := pictures_blank.opened idIndex_contract rfl (fun _ => sampleConfig_inverts [])
    hopened
  have hinner := hempty.inner_eq rfl
  obtain ⟨s₁, hinsert⟩ := hempty.exists_mutated (fun _ => ⟨rfl, sampleInsert_loggable⟩)
    (by rw [hinner]; rfl)
  obtain ⟨o₁, hleads₁, hinserted⟩ :=
    hinsert.traces idIndex_contract (fun _ => sampleInsert_loggable.2) hempty
  obtain rfl := hleads₁.eq_after id
  have hinner₁ := hinserted.inner_eq rfl
  obtain ⟨s₂, hdelete⟩ := hinserted.exists_mutated (fun _ => ⟨rfl, sampleDelete_loggable⟩)
    (by rw [hinner₁]; rfl)
  obtain ⟨o₂, hleads₂, hdeleted⟩ :=
    hdelete.traces idIndex_contract (fun _ => sampleDelete_loggable.2) hinserted
  obtain rfl := hleads₂.eq_after id
  have hlife : Runs (Undergoes defaultBuild idIndex) (⟨none, emptyWorld⟩, true)
      (deletedLife this s₁.1) (⟨some s₂.1, s₂.2⟩, true) :=
    (((Runs.nil _).snoc hfirst).snoc hinsert).snoc hdelete
  have hfits : ∀ i ∈ deletedLife this s₁.1,
      i.Fits defaultBuild idIndex sampleConfig.path := by
    intro i hi
    simp only [deletedLife, List.mem_cons, List.not_mem_nil, or_false] at hi
    rcases hi with rfl | rfl | rfl
    · exact ⟨rfl, fun _ => sampleConfig_inverts []⟩
    · exact fun _ => sampleInsert_loggable.2
    · exact fun _ => sampleDelete_loggable.2
  obtain ⟨bytes, hbytes, hreads⟩ := exists_of_rel_some hdeleted.log
  obtain rfl := hreads.whole rfl
  let u : World Path := { emptyWorld with
    base := Function.update s₂.2.files (walPath sampleConfig.path) (some burstLog) }
  have hfiles : u.files =
    Function.update s₂.2.files (walPath sampleConfig.path) (some burstLog) := rfl
  have hsnapshot : u.files sampleConfig.path = s₂.2.files sampleConfig.path := by
    rw [hfiles, Function.update_of_ne (walPath_ne _).symm]
  have hlog : u.files (walPath sampleConfig.path) = some burstLog := by
    rw [hfiles, Function.update_self]
  obtain ⟨o', hrun, -, hburst⟩ := recovers_burst idIndex_contract Crc32.hash_detectsBursts
    pictures_blank hlife hfits rfl rfl rfl rfl hsnapshot hbytes hlog burst_burstLog (by decide)
  obtain rfl := outline_of_runs hrun (by simp [deletedLife, Incident.Interrupted])
  refine ⟨this, s₁.1, s₂, u, hlife, hdeleted.inner_eq rfl, ?_⟩
  rw [hburst [] [sampleInsert] sampleDelete [] rfl rfl (by decide +kernel) (by decide +kernel)
    (.inl (by decide +kernel)) [7]]
  rfl

end PersistedIndex

end IqdbPersist
