import ParquetFileFs.Pack.Columns
import ParquetFileFs.Pack.Isolated

/-!
# An archive that is packed in parts

Several calls, each with an output of its own, pack the parts of an archive at the
same time.  The outputs open together, and show what the calls accepted as if it had
been packed one after the other.

## Main results

* `parts_shown` — **parts that are packed at the same time open as one archive.**
-/

namespace ParquetFileFs

open Program Segments

section Parts

variable {ι : Type} {W : ParquetWriter} {R : ParquetReader} {A : Adapters} {os : Os}
  {expand : Files → Str → Except Str (List (Except (Str × Str) Str))} {fs₀ : Files}
  {outs : ι → Str} {jobs : ι → Job} {s : Calls ι} {is : List ι} {sch : Schema}
  {pathColumn contentColumn : Option Str} {i : ι} {rows : List Row} {es : List FileEvent}

/-- The shard of a call, opened by the name of its output. -/
def partShard (outs : ι → Str) (jobs : ι → Job) (rows : ι → List Row) (i : ι) : WrittenShard :=
  ⟨outs i, outs i, (jobs i).opts.compression,
    flushGroups (max (jobs i).opts.maxRowGroupBytes 1) (rows i)⟩

theorem rows_partShard (rows : ι → List Row) : (partShard outs jobs rows i).rows = rows i :=
  rows_packedShard (outs i) (outs i) (jobs i).opts (rows i)

theorem opens_partShard {rows : ι → List Row} (hpairs : ∀ pairs, (jobs i).call ≠ .ofPairs pairs)
    (haccepts : (jobs i).call.Accepts W expand fs₀ (outs i) (jobs i).opts (rows i) es)
    (hnodup : ((rows i).map Prod.fst).Nodup) (hsch : (jobs i).opts.schema = sch)
    (hback : ReadsBack R W sch (jobs i).opts.compression
      (flushGroups (max (jobs i).opts.maxRowGroupBytes 1) (rows i)))
    (hserves : Serves A (outs i) (outs i) ((jobs i).shard W (rows i))) :
    (partShard outs jobs rows i).Opens A R W sch := by
  subst hsch
  exact opens_of_accepts hpairs haccepts hnodup hback hserves

/-- **Parts that are packed at the same time open as one archive.**  In whichever order
the calls made their steps, their outputs show together what the calls accepted from the
files at the start, and the policy decides on paths that are in several parts. -/
theorem parts_shown [DecidableEq ι] (hapart : Apart outs)
    (hglob : ∀ fs fs' : Files, (∀ p, fs'.kind p = fs.kind p) → expand fs' = expand fs)
    (hreach : Shared.Reaches (fsWorld expand) (LooksAway expand outs)
      (Shared.start fs₀ fun i => (jobs i).program W (outs i)) s)
    (hok : ∀ i ∈ is, ∃ sum, (s.party i).todo = .ret (.ok sum))
    (hpairs : ∀ i ∈ is, ∀ pairs, (jobs i).call ≠ .ofPairs pairs)
    (hsch : ∀ i ∈ is, (jobs i).opts.schema = sch) (hselects : Selects sch pathColumn contentColumn)
    (hback : ∀ i ∈ is, ∀ rows,
      (jobs i).call.Accepts W expand fs₀ (outs i) (jobs i).opts rows (s.party i).events →
      ReadsBack R W sch (jobs i).opts.compression
        (flushGroups (max (jobs i).opts.maxRowGroupBytes 1) rows))
    (hlocal : A.localAdapter = localAdapter os s.state) (hreg : A.registry "file".toList = none)
    (hplain : ∀ i ∈ is, ¬"://".toList <:+: outs i ∧ containsAny (outs i) globChars = false)
    (pol : DupPolicy) :
    ∃ rows : ι → List Row,
      (∀ i ∈ is, (jobs i).call.Accepts W expand fs₀ (outs i) (jobs i).opts (rows i)
        (s.party i).events) ∧
      ((∃ ix, buildIndex A R pathColumn contentColumn (is.map outs) pol = .ok ix) ↔
        (pol = .error → (is.flatMap fun i => (rows i).map Prod.fst).Nodup)) ∧
      ∀ ix, buildIndex A R pathColumn contentColumn (is.map outs) pol = .ok ix →
        ∀ q, freshCall R ix q = answer (contentOf pol (is.map rows)) q := by
  have hsep := separate_of_reaches hapart hreach
  have hrows : ∀ i, ∃ rows, i ∈ is →
      (jobs i).call.Accepts W expand fs₀ (outs i) (jobs i).opts rows (s.party i).events ∧
      (rows.map Prod.fst).Nodup ∧ s.state.read (outs i) = some ((jobs i).shard W rows) := by
    intro i
    by_cases hi : i ∈ is
    · obtain ⟨sum, htodo⟩ := hok i hi
      obtain ⟨rows, haccepts, hnodup, -, hout, -⟩ := hsep.of_ok hapart hglob htodo
      exact ⟨rows, fun _ => ⟨haccepts, hnodup, hout⟩⟩
    · exact ⟨[], fun h => absurd h hi⟩
  choose rows hrows using hrows
  have hopens : ∀ sh ∈ is.map (partShard outs jobs rows), sh.Opens A R W sch := by
    intro sh hsh
    obtain ⟨i, hi, rfl⟩ := List.mem_map.mp hsh
    obtain ⟨haccepts, hnodup, hout⟩ := hrows i hi
    exact opens_partShard (hpairs i hi) haccepts hnodup (hsch i hi) (hback i hi _ haccepts)
      (serves_localAdapter hlocal hreg (hplain i hi).1 (hplain i hi).2 hout)
  have hsources : is.map outs = (is.map (partShard outs jobs rows)).map WrittenShard.source := by
    rw [List.map_map]
    rfl
  have hpaths : (is.flatMap fun i => (rows i).map Prod.fst)
      = (is.map (partShard outs jobs rows)).flatMap WrittenShard.paths := by
    rw [List.flatMap_map]
    simp only [WrittenShard.paths, rows_partShard]
  have hall : is.map rows = (is.map (partShard outs jobs rows)).map WrittenShard.rows := by
    rw [List.map_map]
    exact List.map_congr_left fun i _ => (rows_partShard rows).symm
  refine ⟨rows, fun i hi => (hrows i hi).1, ?_⟩
  rw [hsources, hpaths, hall]
  refine ⟨⟨fun hbuild => ?_, exists_buildIndex_shards hselects hopens⟩, fun ix h q => ?_⟩
  · obtain ⟨ix, h⟩ := hbuild
    exact (shows_shards hselects hopens h).1
  · rw [freshCall_eq, (shows_shards hselects hopens h).2.directCall]

end Parts

/-- The one row that each of the sample calls packs. -/
theorem rows_of_part {i : Bool} {opts : PackOptions} {rows : List Row} {es : List FileEvent}
    (h : sampleJob.call.Accepts plainWriter expandNothing sampleFiles (sampleOuts i) opts rows es) :
    rows = [("a".toList, [1, 2])] := by
  have htmp : "a".toList ≠ tmpName (sampleOuts i) := by cases i <;> decide
  obtain ⟨pairs, hpairs, hrows⟩ := h
  match pairs, hpairs with
  | [(s, p)], .cons ⟨hp, hs, _⟩ .nil =>
    match rows, hrows with
    | [(s', bs)], .cons ⟨hs', _, hbs⟩ .nil =>
      cases hp
      cases hs
      cases hs'
      cases hbs htmp
      rfl

theorem parts_shown_sample : ∃ s ix, Shared.Reaches (fsWorld expandNothing)
    (LooksAway expandNothing sampleOuts) apartStart s ∧
    buildIndex (localOnly s.state) (namedReader packSchema) none none ["o".toList, "u".toList] .last
      = .ok ix ∧
    freshCall (namedReader packSchema) ix (.read "/a".toList) = .ok (.bytes [1, 2]) := by
  obtain ⟨s, hs, htrue, hfalse⟩ := exists_reaches_apart
  have hok : ∀ i ∈ [true, false], ∃ sum, (s.party i).todo = .ret (.ok sum) := by
    intro i _
    cases i
    · exact ⟨_, hfalse⟩
    · exact ⟨_, htrue⟩
  have hback : ∀ i ∈ [true, false], ∀ rows, sampleJob.call.Accepts plainWriter expandNothing
      sampleFiles (sampleOuts i) sampleJob.opts rows (s.party i).events →
      ReadsBack (namedReader packSchema) plainWriter packSchema .zstd
        (flushGroups (max sampleJob.opts.maxRowGroupBytes 1) rows) := by
    intro i _ rows hrows
    obtain rfl := rows_of_part hrows
    refine readsBack_named _ _ fun g hg r hr => ?_
    have hmem : r ∈ [("a".toList, [1, 2])] := by
      rw [← Grouping.flatten_groups rowSize (max sampleJob.opts.maxRowGroupBytes 1) [_]]
      exact List.mem_flatten.mpr ⟨g, hg, hr⟩
    obtain rfl := List.mem_singleton.mp hmem
    simp
  have hplain : ∀ i ∈ [true, false],
      ¬"://".toList <:+: sampleOuts i ∧ containsAny (sampleOuts i) globChars = false := by decide
  have hlocal : (localOnly s.state).localAdapter = localAdapter sampleOs s.state := rfl
  obtain ⟨rows, hrows, hopens, hcalls⟩ := parts_shown apart_sampleOuts (fun _ _ _ => rfl) hs hok
    (fun _ _ pairs => by simp [sampleJob]) (fun _ _ => rfl) selects_packSchema hback hlocal rfl
    hplain .last
  obtain ⟨ix, hix⟩ := hopens.mpr fun h => by cases h
  refine ⟨s, ix, hs, hix, ?_⟩
  rw [hcalls ix hix, List.map_cons, List.map_cons, rows_of_part (hrows true (by simp)),
    rows_of_part (hrows false (by simp))]
  rfl

end ParquetFileFs
