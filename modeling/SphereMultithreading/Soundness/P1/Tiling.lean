import SphereMultithreading.Machine.Run
import SphereMultithreading.Proofs.P1.Calls

/-! # When the block list accounts for the whole buffer

The growing branch of `realloc` erases, behind the run it merges, every further block that is free
or its own, up to the end of the list, and their bytes are lost. `KeepsBytes` says of a call that
no nonempty block stands there. A run of calls goes through and keeps the list tiling the buffer
exactly if all its calls have this property.
-/

namespace SphereMultithreading.Soundness.P1

open Machine Layout Model.P1 Model.P1.Allocator Proofs.P1

/-- The first block starts at 0, every next one where its predecessor ends, the last one ends at
the end of the buffer. -/
def Tiled (S : ℕ) (blocks : List MemoryBlock) : Prop :=
  blocks.head?.map (·.offset) = some 0 ∧
    blocks.IsChain (fun b c => c.offset = b.offset + b.length) ∧
    blocks.getLast?.map (fun b => b.offset + b.length) = some S

/-- The Pointer designates a listed block, and growing leaves no nonempty block that is free or
the block itself behind the run it takes. -/
def KeepsBytes (s : Session) : Call → Prop
  | .free i => ∃ h b, Names s i h b
  | .realloc i N => ∃ h b, Names s i h b ∧ ∀ own, s.allocator.findBlock b.offset = some own →
      own.length < N → ∀ fit after,
        fitting own.addr N [] s.allocator.blocks = some (fit, after) →
        ∀ late ∈ after, Joins own.addr late → late.length = 0
  | _ => True

theorem Tiled.placed {S : ℕ} {blocks : List MemoryBlock} (tiled : Tiled S blocks) :
    Placed (· = ·) 0 blocks S := by
  have nonempty : blocks ≠ [] := by
    rintro rfl
    simp [Tiled] at tiled
  exact (laid_eq_iff nonempty).mpr tiled

theorem Tiled.total_eq {S : ℕ} {blocks : List MemoryBlock} (tiled : Tiled S blocks) :
    total blocks = S := by
  have sum := tiled.placed.rel_sum Placement.eq
  rwa [Nat.zero_add] at sum

/-- A valid session whose blocks tile the buffer and whose live Pointers are not null. -/
structure Accounted (S : ℕ) (s : Session) : Prop where
  valid : WellPlaced (· = ·) S s.allocator
  real : ∀ h ∈ s.live, h.pointer.pBlock.isSome

private theorem Accounted.tiled {S : ℕ} {s : Session} (accounted : Accounted S s) :
    Tiled S s.allocator.blocks :=
  (laid_eq_iff accounted.valid.nonempty).mp accounted.valid.placed

theorem Accounted.kept {S : ℕ} {s t : Session} {call : Call}
    (stepped : s.step call = some t) (accounted : Accounted S s) (keeps : KeepsBytes s call) :
    Accounted S t := by
  have change := step_change accounted.valid.nodup accounted.real stepped
  refine ⟨change.wellPlaced Placement.eq accounted.valid ?_, change.real accounted.real⟩
  rintro i N h b own fit after rfl names found shorter fits late member joins
  obtain ⟨h', b', names', drops⟩ := keeps
  obtain rfl := Option.some.inj (names.live.symm.trans names'.live)
  have same : b.addr = b'.addr := by
    simpa [names.designates] using names'.designates
  obtain rfl := eq_of_addr accounted.valid.nodup names.listed names'.listed same
  have empty := drops own found shorter fit after fits late member joins
  rw [empty, Nat.add_zero]

/-- The lengths dropped by a growing call are missing from the list afterwards. -/
private theorem Accounted.keeps {S : ℕ} {s t : Session} {call : Call}
    (stepped : s.step call = some t) (accounted : Accounted S s)
    (tiled : Tiled S t.allocator.blocks) : KeepsBytes s call := by
  have change := step_change accounted.valid.nodup accounted.real stepped
  cases change with
  | alloc | allocFails | defrag | freeNull | reallocNull | reallocNullFails => trivial
  | free names => exact ⟨_, _, names⟩
  | same names found equal =>
    refine ⟨_, _, names, fun own' found' shorter => ?_⟩
    obtain rfl := Option.some.inj (found.symm.trans found')
    omega
  | shrink names found longer =>
    refine ⟨_, _, names, fun own' found' shorter => ?_⟩
    obtain rfl := Option.some.inj (found.symm.trans found')
    omega
  | reallocFails names found shorter none =>
    refine ⟨_, _, names, fun own' found' _ fit after fits => ?_⟩
    obtain rfl := Option.some.inj (found.symm.trans found')
    rw [none] at fits
    contradiction
  | @grow i N h b own lead fit pre mid after names found shorter fits leads cut joins enough =>
    refine ⟨_, _, names, fun own' found' _ fit' after' fits' late member joined => ?_⟩
    obtain rfl := Option.some.inj (found.symm.trans found')
    obtain ⟨rfl, rfl⟩ : fit' = fit ∧ after' = after := by simpa [fits, eq_comm] using fits'
    have inRun : ∀ c ∈ mid, Joins own.addr c := fun c member => joins c (List.mem_cons_of_mem _ member)
    have before : total s.allocator.blocks = S := accounted.tiled.total_eq
    have behind := tiled.total_eq
    simp only [mergeEmptyBlocks, total_mergeLoop (show OpenRun none 0 from rfl),
      grow_blocks accounted.valid.nodup cut inRun, total_append, total_cons, MemoryBlock.new,
      total_update_state] at behind
    simp only [cut, total_append, total_cons] at before
    have sorted := total_filter_add (fun c => decide (¬ Joins own.addr c))
      (fun c => decide (Joins own.addr c)) (fun c => by simp) after'
    have dropped : total (after'.filter fun c => decide (Joins own.addr c)) = 0 := by omega
    exact total_eq_zero_iff.mp dropped late (List.mem_filter.mpr ⟨member, by simpa using joined⟩)

/-- A sequence of calls goes through, with the list tiling the buffer after every one of them,
exactly if no call that grows a block drops a nonempty one behind the run it takes. -/
theorem blocks_tile_iff (buffer : ℕ → UInt8) (S : ℕ) (calls : List Call) :
    ((∃ s, run Session.step (.new buffer S) calls = some s) ∧
      Throughout Session.step (fun s => Tiled S s.allocator.blocks) (.new buffer S) calls) ↔
    Guarded Session.step KeepsBytes (.new buffer S) calls := by
  have initial : Accounted S (.new buffer S) :=
    ⟨.new Placement.eq buffer S, by simp [Session.new]⟩
  constructor
  · rintro ⟨⟨s, success⟩, tiled⟩
    exact (throughout_iff_guarded (fun _ accounted => Accounted.tiled accounted)
      (fun _ _ _ stepped accounted keeps => accounted.kept stepped keeps)
      (fun _ _ _ stepped accounted tiled => accounted.keeps stepped tiled) success initial).mp tiled
  · intro guarded
    have progress : ∀ s call, Accounted S s → KeepsBytes s call →
        ∃ t, s.step call = some t ∧ Accounted S t := by
      intro s call accounted keeps
      obtain ⟨t, stepped⟩ : ∃ t, s.step call = some t := step_defined accounted.valid.nodup (by
        rintro i N (rfl | rfl)
        · exact keeps
        · obtain ⟨h, b, names, -⟩ := keeps
          exact ⟨h, b, names⟩)
      exact ⟨t, stepped, accounted.kept stepped keeps⟩
    obtain ⟨reached, visited⟩ := run_of_guarded progress guarded initial
    exact ⟨reached, visited.imp fun _ accounted => accounted.tiled⟩

/-- Growing the first of two blocks with free space behind both loses the space at the end. -/
theorem blocks_tile_fails :
    ¬ ∀ (buffer : ℕ → UInt8) (S : ℕ) (calls : List Call) (s : Session),
      run Session.step (.new buffer S) calls = some s → Tiled S s.allocator.blocks := by
  intro tiles
  have tiled := tiles (fun _ => 0) 100 [.alloc 10, .alloc 10, .alloc 10, .free 1, .realloc 0 15] _ rfl
  exact absurd tiled.2.2 (by decide)

end SphereMultithreading.Soundness.P1
