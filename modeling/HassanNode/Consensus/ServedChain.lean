import Mathlib
import HassanNode.Consensus.ColdStart
import HassanNode.Consensus.Interlinks

/-!
# HassanNode.Consensus.ServedChain

The headers an archival node serves for a pruning point (`build_pruning_proof`):
its selected chain from genesis, where every header names the one before it, has
the interlinks that one gives it, its own work, and a timestamp in order. Both
kinds of pruning proof are made of these headers.
-/

namespace HassanNode

open Params

@[simp] theorem Block.hash_headerOnly [Crypto] (b : Block) : b.headerOnly.hash = b.hash := rfl

/-- A list read entry by entry has the entries read. -/
theorem getElem?_of_mapM {α β : Type} {f : α → Option β} {xs : List α} {ys : List β}
    (h : xs.mapM f = some ys) : ys.length = xs.length ∧ ∀ i : Nat, ys[i]? = xs[i]?.bind f := by
  induction xs generalizing ys with
  | nil =>
      obtain rfl : [] = ys := by simpa using h
      exact ⟨rfl, fun i => rfl⟩
  | cons x xs ih =>
      rw [List.mapM_cons] at h
      obtain ⟨y, hy, h⟩ := Option.bind_eq_some_iff.mp h
      obtain ⟨zs, hzs, h⟩ := Option.bind_eq_some_iff.mp h
      obtain rfl := Option.some.inj h
      refine ⟨congrArg (· + 1) (ih hzs).1, fun i => ?_⟩
      cases i with
      | zero => exact hy.symm
      | succ i => exact (ih hzs).2 i

theorem exists_mapM {α β : Type} {f : α → Option β} {xs : List α} (h : ∀ x ∈ xs, ∃ y, f x = some y) :
    ∃ ys, xs.mapM f = some ys := by
  induction xs with
  | nil => exact ⟨[], rfl⟩
  | cons x xs ih =>
      obtain ⟨y, hy⟩ := h x (by simp)
      obtain ⟨ys, hys⟩ := ih fun z hz => h z (List.mem_cons_of_mem x hz)
      exact ⟨y :: ys, by rw [List.mapM_cons, hy, hys]; rfl⟩

namespace ChainState

variable [Crypto]

/-! ### What every accepted header has -/

/-- A header and its selected parent: what admission checked between them, and
that it was not ahead of a clock. -/
structure HeaderOf (st : ChainState) (now : Nat) (h : Hash) (b : Block) (p : Hash) (c : Block) :
    Prop where
  link : st.ghostdag.spOf h = some p
  parent : st.dag[p]? = some c
  named : p ∈ b.parents
  interlinks : b.interlinks = computeInterlinks c
  time : c.timestamp ≤ b.timestamp
  pow : verifyPow b.hash b.difficulty = true
  drift : b.timestamp.toNat ≤ satAdd64 now maxFutureDriftMs

variable {st : ChainState} {env : Env} {block : Block} {gd : GhostdagData} {sp : Hash}

theorem Admitted.pow (a : st.Admitted env block gd sp) : verifyPow block.hash block.difficulty = true := by
  obtain ⟨-, h⟩ := Except.seq_eq_ok a.work
  obtain ⟨hpow, -⟩ := Except.seq_eq_ok h
  exact ensure_eq_ok.mp hpow

theorem Admitted.difficulty (a : st.Admitted env block gd sp) :
    block.difficulty.toNat = st.expectedDifficultyAt env.labEasyPow block.parents block.timestamp.toNat := by
  obtain ⟨hdiff, -⟩ := Except.seq_eq_ok a.work
  exact beq_iff_eq.mp (ensure_eq_ok.mp hdiff)

/-- No parent is later than the block, and the block is not ahead of the clock. -/
theorem Admitted.times (a : st.Admitted env block gd sp) :
    (∀ p ∈ block.parents, ∀ c, st.dag[p]? = some c → c.timestamp ≤ block.timestamp) ∧
      block.timestamp.toNat ≤ satAdd64 env.now maxFutureDriftMs := by
  obtain ⟨-, h⟩ := Except.seq_eq_ok a.header
  obtain ⟨-, h⟩ := Except.seq_eq_ok h
  obtain ⟨hmax, h⟩ := Except.seq_eq_ok h
  obtain ⟨-, hdrift⟩ := Except.seq_eq_ok h
  refine ⟨fun p hp c hc => ?_, of_decide_eq_true (ensure_eq_ok.mp hdrift)⟩
  have hmax := of_decide_eq_true (ensure_eq_ok.mp hmax)
  have hmem : c.timestamp.toNat ∈ block.parents.filterMap fun p => st.dag[p]?.map (·.timestamp.toNat) :=
    List.mem_filterMap.mpr ⟨p, hp, by rw [hc]; rfl⟩
  obtain ⟨m, hm⟩ := Option.isSome_iff_exists.mp (List.isSome_max?_of_mem hmem)
  rw [hm, Option.getD_some] at hmax
  exact UInt64.le_iff_toNat_le.mpr (((List.max?_eq_some_iff.mp hm).2 _ hmem).trans hmax)

/-- The clocks of a run are not ahead of a clock. -/
def ClockedBy (now : Nat) (_before : List (Env × Block)) (call : Env × Block) : Prop := call.1.now ≤ now

theorem headerOf_run (easy : Bool) (seed : Ledger) {now : Nat} {calls : List (Env × Block)}
    (hclock : AllCalls (ClockedBy now) calls) {h : Hash} {b : Block}
    (hb : ((ChainState.seeded easy true seed).run calls).dag[h]? = some b)
    (hne : h ≠ genesisBlock.hash) :
    ∃ p c, ((ChainState.seeded easy true seed).run calls).HeaderOf now h b p c := by
  refine Archival.each_block (Q := fun s h b => ∃ p c, s.HeaderOf now h b p c) easy seed ?_ ?_ hclock hb hne
  · intro calls env block gd sp hnow _ _ a
    have hmem := a.parents_mem sp a.isBest.mem
    obtain ⟨c, hc⟩ := DagInv.exists_block hmem
    refine ⟨sp, c, spOf_insertBlock a, ((extends_insertBlock a).dag sp hmem).trans hc, a.isBest.mem, ?_,
      a.times.1 sp a.isBest.mem c hc, a.pow, a.times.2.trans ?_⟩
    · rw [a.interlinks, hc]
      rfl
    · have hle : env.now ≤ now := hnow
      unfold satAdd64
      omega
  · intro s s' h b w he hb hheader
    obtain ⟨p, c, hheader⟩ := hheader
    have hh := DagInv.mem_of_getElem? hb
    exact ⟨p, c, { hheader with
      link := (he.spOf hh).trans hheader.link
      parent := (he.dag p (w.dagInv.spOf_mem hheader.link).2).trans hheader.parent }⟩

/-! ### The served headers -/

/-- Headers from genesis on, each with the one before it as its selected parent. -/
structure Served (now : Nat) (headers : List Block) : Prop where
  genesis : headers[0]? = some genesisBlock.headerOnly
  linked : ∀ i a b, headers[i]? = some a → headers[i + 1]? = some b →
    a.hash ∈ b.parents ∧ b.interlinks = computeInterlinks a ∧ a.timestamp ≤ b.timestamp
  worked : ∀ i b, headers[i + 1]? = some b →
    verifyPow b.hash b.difficulty = true ∧ b.timestamp.toNat ≤ satAdd64 now maxFutureDriftMs

omit [Crypto] in
/-- The blocks of a selected chain are linked by their selected parents. -/
theorem selectedChain_links {gd : GhostdagMap} (hd : gd.Descends) {tip a b : Hash} {i : Nat}
    (ha : (gd.selectedChain tip)[i]? = some a) (hb : (gd.selectedChain tip)[i + 1]? = some b) :
    gd.spOf b = some a := by
  induction tip using GhostdagMap.chain_induction hd with
  | root h hsp =>
      rw [GhostdagMap.selectedChain_root hsp] at hb
      cases hb
  | step h p hsp ih =>
      rw [GhostdagMap.selectedChain_step hd hsp] at ha hb
      have hlt : i < (gd.selectedChain p).length := by
        have := (List.getElem?_eq_some_iff.mp hb).1
        simp only [List.length_append, List.length_singleton] at this
        omega
      rw [List.getElem?_append_left hlt] at ha
      rcases Nat.lt_or_ge (i + 1) (gd.selectedChain p).length with hlt' | hge
      · rw [List.getElem?_append_left hlt'] at hb
        exact ih ha hb
      · -- the last link
        obtain hlen : (gd.selectedChain p).length = i + 1 := by omega
        obtain rfl : h = b := by simpa [List.getElem?_append_right, hlen] using hb
        have hlast : (gd.selectedChain p).getLast? = some p := by
          cases hp : gd.spOf p with
          | none => simp [GhostdagMap.selectedChain_root hp]
          | some q => simp [GhostdagMap.selectedChain_step hd hp]
        rw [List.getLast?_eq_getElem?, hlen] at hlast
        rw [hsp, ← hlast]
        exact ha

/-- The node with a pruning point to serve. -/
def atPoint (st : ChainState) (pp : Hash) : ChainState := { st with pruningPoint := some pp }

omit [Crypto] in
theorem atPoint_core (st : ChainState) (pp : Hash) : st.SameCore (st.atPoint pp) :=
  ⟨rfl, rfl, rfl, rfl, rfl, rfl⟩

/-- What a built proof is: the headers of the selected chain up to the pruning
point. -/
structure Built (st : ChainState) (pp tip : Hash) (headers : List Block) : Prop where
  selected : st.selectedTip = some tip
  first : headers.head?.map Block.hash = some genesisBlock.hash
  last : headers.getLast?.map Block.hash = some pp
  blocks : ∀ (i : Nat) (b : Block), headers[i]? = some b → ∃ (h : Hash) (b₀ : Block),
    (st.ghostdag.selectedChain tip)[i]? = some h ∧ st.dag[h]? = some b₀ ∧ b = b₀.headerOnly

theorem buildPruningProof_eq {pp : Hash} {headers : List Block} (w : st.Whole)
    (hpp : st.pruningPoint = some pp) (hbuild : st.buildPruningProof = some headers) :
    ∃ tip, st.Built pp tip headers := by
  obtain ⟨pp', hpp', hbuild⟩ := Option.bind_eq_some_iff.mp hbuild
  obtain rfl : pp = pp' := Option.some.inj (hpp.symm.trans hpp')
  obtain ⟨tip, htip, hbuild⟩ := Option.bind_eq_some_iff.mp hbuild
  dsimp only at hbuild
  split at hbuild
  next hmem =>
    have hmem : pp ∈ st.ghostdag.selectedChain tip := List.contains_iff_mem.mp hmem
    have hidx := List.idxOf_lt_length_iff.mpr hmem
    obtain ⟨hs, hmap, hbuild⟩ := Option.bind_eq_some_iff.mp hbuild
    obtain ⟨hlen, hentry⟩ := getElem?_of_mapM hmap
    split at hbuild
    next hfirst =>
      obtain rfl := Option.some.inj hbuild
      have hblocks : ∀ (i : Nat) (b : Block), hs[i]? = some b → ∃ (h : Hash) (b₀ : Block),
          (st.ghostdag.selectedChain tip)[i]? = some h ∧ st.dag[h]? = some b₀ ∧ b = b₀.headerOnly := by
        intro i b hb
        rw [hentry] at hb
        obtain ⟨h, hh, hb⟩ := Option.bind_eq_some_iff.mp hb
        obtain ⟨b₀, hb₀, rfl⟩ := Option.map_eq_some_iff.mp hb
        rw [List.getElem?_take] at hh
        split at hh
        · exact ⟨h, b₀, hh, hb₀, rfl⟩
        · cases hh
      refine ⟨tip, htip, hfirst, ?_, hblocks⟩
      rw [List.length_take] at hlen
      have hlt : (st.ghostdag.selectedChain tip).idxOf pp < hs.length := by omega
      have hlast : hs.getLast? = hs[(st.ghostdag.selectedChain tip).idxOf pp]? := by
        rw [List.getLast?_eq_getElem?]
        congr 1
        omega
      obtain ⟨h, b₀, hh, hb₀, hb⟩ := hblocks _ _ (List.getElem?_eq_getElem hlt)
      rw [hlast, List.getElem?_eq_getElem hlt, Option.map_some, hb, Block.hash_headerOnly, w.dagInv.keyed hb₀]
      rw [List.getElem?_eq_getElem hidx, List.getElem_idxOf hidx] at hh
      exact hh.symm
    next => cases hbuild
  next => cases hbuild

theorem HeaderOf.of_core {st' : ChainState} {now : Nat} {h p : Hash} {b c : Block}
    (hheader : st.HeaderOf now h b p c) (hcore : st.SameCore st') : st'.HeaderOf now h b p c :=
  { hheader with
    link := by rw [hcore.ghostdag]; exact hheader.link
    parent := by rw [hcore.dag]; exact hheader.parent }

/-- Only the first block of a chain is genesis. -/
theorem Whole.chain_ne_genesis (w : st.Whole) (hgenesis : st.dag[genesisBlock.hash]? = some genesisBlock)
    {tip h : Hash} {i : Nat} (hh : (st.ghostdag.selectedChain tip)[i + 1]? = some h) :
    h ≠ genesisBlock.hash := by
  rintro rfl
  have hi : i < (st.ghostdag.selectedChain tip).length := by
    have := (List.getElem?_eq_some_iff.mp hh).1
    omega
  have hparent := w.dagInv.spOf_parent
    (selectedChain_links w.dagInv.descends (List.getElem?_eq_getElem hi) hh)
  rw [Dag.parentsOf_eq hgenesis] at hparent
  cases hparent

/-- The headers of a built proof are served in order. -/
theorem Built.served {pp tip : Hash} {headers : List Block} {now : Nat} (hbuilt : st.Built pp tip headers)
    (w : st.Whole) (hgenesis : st.dag[genesisBlock.hash]? = some genesisBlock)
    (hheader : ∀ h b, st.dag[h]? = some b → h ≠ genesisBlock.hash → ∃ p c, st.HeaderOf now h b p c) :
    Served now headers := by
  -- a later block of the chain is not genesis, and its selected parent is the block before it
  have hlater : ∀ {i h b}, (st.ghostdag.selectedChain tip)[i + 1]? = some h → st.dag[h]? = some b →
      ∃ p c, st.HeaderOf now h b p c ∧ (st.ghostdag.selectedChain tip)[i]? = some p := by
    intro i h b hh hb
    have hi : i < (st.ghostdag.selectedChain tip).length := by
      have := (List.getElem?_eq_some_iff.mp hh).1
      omega
    have hsp := selectedChain_links w.dagInv.descends (List.getElem?_eq_getElem hi) hh
    obtain ⟨p, c, hof⟩ := hheader h b hb (w.chain_ne_genesis hgenesis hh)
    obtain rfl := Option.some.inj (hsp.symm.trans hof.link)
    exact ⟨_, c, hof, List.getElem?_eq_getElem hi⟩
  refine ⟨?_, fun i a b ha hb => ?_, fun i b hb => ?_⟩
  · obtain ⟨first, hfirst, hhash⟩ := Option.map_eq_some_iff.mp hbuilt.first
    rw [List.head?_eq_getElem?] at hfirst
    obtain ⟨h, b₀, -, hb₀, rfl⟩ := hbuilt.blocks 0 first hfirst
    rw [Block.hash_headerOnly, w.dagInv.keyed hb₀] at hhash
    subst hhash
    rw [hfirst, ← Option.some.inj (hgenesis.symm.trans hb₀)]
  · obtain ⟨h, b₀, hh, hb₀, rfl⟩ := hbuilt.blocks (i + 1) b hb
    obtain ⟨p, c, hof, hp⟩ := hlater hh hb₀
    obtain ⟨p', a₀, hp', ha₀, rfl⟩ := hbuilt.blocks i a ha
    obtain rfl := Option.some.inj (hp.symm.trans hp')
    obtain rfl := Option.some.inj (hof.parent.symm.trans ha₀)
    refine ⟨?_, hof.interlinks, hof.time⟩
    rw [Block.hash_headerOnly, w.dagInv.keyed ha₀]
    exact hof.named
  · obtain ⟨h, b₀, hh, hb₀, rfl⟩ := hbuilt.blocks (i + 1) b hb
    obtain ⟨p, c, hof, -⟩ := hlater hh hb₀
    exact ⟨hof.pow, hof.drift⟩

/-- Every chain starts at genesis. -/
theorem Whole.head_selectedChain (w : st.Whole) {tip : Hash} (htip : tip ∈ st.dag) :
    (st.ghostdag.selectedChain tip)[0]? = some genesisBlock.hash := by
  induction tip using GhostdagMap.chain_induction w.dagInv.descends with
  | root h hsp =>
      rw [GhostdagMap.selectedChain_root hsp, w.roots h htip hsp]
      rfl
  | step h p hsp ih =>
      have hp := ih (w.dagInv.spOf_mem hsp).2
      rw [GhostdagMap.selectedChain_step w.dagInv.descends hsp,
        List.getElem?_append_left (List.getElem?_eq_some_iff.mp hp).1, hp]

/-- A node that has lost no history can serve every block of its chain. -/
theorem Whole.exists_buildPruningProof (w : st.Whole) {pp tip : Hash} (htip : st.selectedTip = some tip)
    (habove : Above st.ghostdag.spOf pp tip) :
    ∃ headers, (st.atPoint pp).buildPruningProof = some headers := by
  have hd := w.dagInv.descends
  have hmem : pp ∈ st.ghostdag.selectedChain tip := (GhostdagMap.mem_selectedChain hd).mpr habove
  have hdag : ∀ h ∈ st.ghostdag.selectedChain tip, h ∈ st.dag := fun h hh =>
    w.dagInv.above_mem ((GhostdagMap.mem_selectedChain hd).mp hh) (w.tip_mem htip)
  obtain ⟨headers, hmap⟩ : ∃ ys, ((st.ghostdag.selectedChain tip).take
      ((st.ghostdag.selectedChain tip).idxOf pp + 1)).mapM
        (fun h => st.dag[h]?.map Block.headerOnly) = some ys := by
    refine exists_mapM fun h hh => ?_
    obtain ⟨b, hb⟩ := DagInv.exists_block (hdag h (List.mem_of_mem_take hh))
    exact ⟨b.headerOnly, by rw [hb]; rfl⟩
  refine ⟨headers, ?_⟩
  have hfirst : headers.head?.map Block.hash = some genesisBlock.hash := by
    have hhead := w.head_selectedChain (w.tip_mem htip)
    obtain ⟨g, hg⟩ := DagInv.exists_block w.genesis_mem
    rw [List.head?_eq_getElem?, (getElem?_of_mapM hmap).2, List.getElem?_take, if_pos (Nat.succ_pos _),
      hhead, Option.bind_some, hg, Option.map_some, Option.map_some, Block.hash_headerOnly,
      w.dagInv.keyed hg]
  have htip' : (st.atPoint pp).selectedTip = some tip := htip
  have hcontains : (st.ghostdag.selectedChain tip).contains pp = true := List.contains_iff_mem.mpr hmem
  unfold buildPruningProof
  rw [htip']
  simp only [atPoint, Option.bind_eq_bind, Option.bind_some, hcontains, if_true, hmap, hfirst]

/-- The proof an archival node builds is made of its own blocks, served in order. -/
theorem served_run (easy : Bool) (seed : Ledger) {now : Nat} {calls : List (Env × Block)}
    (hclock : AllCalls (ClockedBy now) calls) {pp : Hash} {headers : List Block}
    (hbuild : (((ChainState.seeded easy true seed).run calls).atPoint pp).buildPruningProof = some headers) :
    Served now headers ∧ headers.getLast?.map Block.hash = some pp ∧
      ∀ (i : Nat) (b : Block), headers[i + 1]? = some b → ∃ (h : Hash) (b₀ : Block),
        ((ChainState.seeded easy true seed).run calls).dag[h]? = some b₀ ∧ h ≠ genesisBlock.hash ∧
          b = b₀.headerOnly := by
  have hcore := ((ChainState.seeded easy true seed).run calls).atPoint_core pp
  have w := (Archival.run easy seed calls).whole.of_core hcore
  have hgenesis := (archival_genesis easy seed calls).1
  obtain ⟨tip, hbuilt⟩ := buildPruningProof_eq w rfl hbuild
  refine ⟨hbuilt.served w hgenesis fun h b hb hne => ?_, hbuilt.last, fun i b hb => ?_⟩
  · obtain ⟨p, c, hof⟩ := headerOf_run easy seed hclock hb hne
    exact ⟨p, c, hof.of_core hcore⟩
  · obtain ⟨h, b₀, hh, hb₀, rfl⟩ := hbuilt.blocks (i + 1) b hb
    exact ⟨h, b₀, hb₀, w.chain_ne_genesis hgenesis hh, rfl⟩

end ChainState

end HassanNode
