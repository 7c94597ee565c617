import Mathlib
import HassanNode.Lib.Tasks
import HassanNode.Ledger.Moves
import HassanNode.Ledger.Form

/-!
# HassanNode.Ledger.Reorder

Spends in another order. Of some spends that apply one after the other, with different
hashes, whose outputs the set has not seen, each applies in every order that has its
parents before it: what an outpoint holds depends on who made it and not on when
(`run_output`), and the credits of all of them fit because they have fitted once
(`run_credited`). So the spends are items that wait for each other
(`tasks_of_run`).
-/

namespace HassanNode

open Std (ExtTreeMap ExtTreeSet)
open Params Worklist

section Attempt

variable [Crypto] {mediaBlue : Nat} {s s' : UtxoSet × Accounts} {tx : UtxoTx}

/-- Try a spend; nothing happens where it fails. -/
def UtxoTx.attempt (mediaBlue : Nat) (s : UtxoSet × Accounts) (tx : UtxoTx) : Option (UtxoSet × Accounts) :=
  match applyUtxoTx s.1 s.2 tx mediaBlue with
  | (s', .ok _) => some s'
  | (_, .error _) => none

theorem UtxoTx.attempt_eq_some :
    UtxoTx.attempt mediaBlue s tx = some s' ↔ ∃ fee, applyUtxoTx s.1 s.2 tx mediaBlue = (s', .ok fee) := by
  rw [UtxoTx.attempt]
  split
  · rename_i t fee hrun
    rw [hrun]
    constructor
    · intro h
      exact ⟨fee, by rw [Option.some.inj h]⟩
    · rintro ⟨fee', h⟩
      exact congrArg some (Prod.mk.inj h).1
  · rename_i t e hrun
    rw [hrun]
    exact ⟨fun h => (by cases h), fun ⟨fee, h⟩ => by cases (Prod.mk.inj h).2⟩

/-! ### What the checks look at -/

/-- The checks of a spend look at the outputs it takes, and at nothing else of the set. -/
theorem checkUtxoTx_congr {u u' : UtxoSet}
    (h : ∀ tin ∈ tx.inputs, u'.entries[tin.previous]? = u.entries[tin.previous]?) :
    checkUtxoTx u' tx mediaBlue = checkUtxoTx u tx mediaBlue := by
  have hinputs : ∀ (inputs : List TxIn) (sum : Nat),
      (∀ tin ∈ inputs, u'.entries[tin.previous]? = u.entries[tin.previous]?) →
      checkInputs u' tx mediaBlue inputs sum = checkInputs u tx mediaBlue inputs sum := by
    intro inputs
    induction inputs with
    | nil => exact fun _ _ => rfl
    | cons tin inputs ih =>
        intro sum hsame
        have hone : checkInput u' tx mediaBlue tin = checkInput u tx mediaBlue tin := by
          rw [checkInput, checkInput, hsame tin List.mem_cons_self]
        rw [checkInputs, checkInputs, hone]
        congr 1
        funext value
        cases checkedAdd128 sum value with
        | none => rfl
        | some sum' => exact ih sum' fun t ht => hsame t (List.mem_cons_of_mem tin ht)
  rw [checkUtxoTx, checkUtxoTx, hinputs tx.inputs 0 h]

/-! ### Credits -/

/-- An output credits an account. -/
def TxOut.Credits (out : TxOut) (addr : Address) : Prop :=
  out.predicate.isAccountCredit = true ∧ out.predicate.lockedAddress = some addr

instance (out : TxOut) (addr : Address) : Decidable (out.Credits addr) :=
  inferInstanceAs (Decidable (_ ∧ _))

/-- What some outputs credit to an account. -/
def credited (addr : Address) (outs : List TxOut) : Nat :=
  (outs.map fun out => if out.Credits addr then out.value else 0).sum

omit [Crypto] in
theorem credited_cons (addr : Address) (out : TxOut) (outs : List TxOut) :
    credited addr (out :: outs) = (if out.Credits addr then out.value else 0) + credited addr outs := by
  rw [credited, List.map_cons, List.sum_cons]
  rfl

omit [Crypto] in
theorem credited_eq_zero {addr : Address} {outs : List TxOut} (h : ∀ out ∈ outs, ¬ out.Credits addr) :
    credited addr outs = 0 := by
  refine List.sum_eq_zero fun n hn => ?_
  obtain ⟨out, hout, rfl⟩ := List.mem_map.mp hn
  exact if_neg (h out hout)

omit [Crypto] in
/-- The output loop credits what its outputs say, and no account overflows. -/
theorem outputs_credited {txid : Hash} {outs : List (TxOut × Nat)} {u u' : UtxoSet} {accounts accounts' : Accounts}
    (h : UtxoEffect.applyAll (outs.map (outputEffect txid mediaBlue)) u accounts = ((u', accounts'), .ok ())) :
    (∀ addr, (accounts'.entry addr).balance = (accounts.entry addr).balance + credited addr (outs.map Prod.fst)) ∧
    ∀ o ∈ outs, o.1.predicate.isAccountCredit = true →
      ∃ addr, o.1.predicate.lockedAddress = some addr ∧ (accounts'.entry addr).balance ≤ u128Max := by
  induction outs generalizing u accounts with
  | nil =>
      cases h
      exact ⟨fun addr => rfl, fun o ho => absurd ho List.not_mem_nil⟩
  | cons o outs ih =>
      rw [List.map_cons, UtxoEffect.applyAll] at h
      split at h
      · rename_i u₁ accounts₁ he
        obtain ⟨hbalance, hfits⟩ := ih h
        rw [outputEffect] at he
        split at he
        · rename_i hcredit
          cases haddr : o.1.predicate.lockedAddress with
          | none =>
              rw [haddr] at he
              cases he
          | some a =>
              rw [haddr, UtxoEffect.apply] at he
              split at he
              · cases he
              · rename_i balance hadd
                obtain ⟨hle, rfl⟩ := checkedAdd128_eq_some.mp hadd
                obtain ⟨rfl, rfl⟩ := Prod.mk.inj (Except.ok.inj he)
                have hstep : ∀ addr, (accounts'.entry addr).balance
                    = (accounts.entry addr).balance + credited addr ((o :: outs).map Prod.fst) := by
                  intro addr
                  rw [hbalance addr, Accounts.entry_insert, List.map_cons, credited_cons]
                  by_cases heq : a = addr
                  · subst heq
                    rw [if_pos rfl, if_pos ⟨hcredit, haddr⟩]
                    exact Nat.add_assoc _ _ _
                  · rw [if_neg heq, if_neg fun hc => heq (Option.some.inj (haddr.symm.trans hc.2)), Nat.zero_add]
                refine ⟨hstep, fun o' ho' hcredit' => ?_⟩
                rcases List.mem_cons.mp ho' with rfl | hrest
                · refine ⟨a, haddr, ?_⟩
                  by_cases hmore : ∃ o'' ∈ outs, o''.1.Credits a
                  · obtain ⟨o'', ho'', hc⟩ := hmore
                    obtain ⟨addr, haddr', hfit⟩ := hfits o'' ho'' hc.1
                    obtain rfl := Option.some.inj (haddr'.symm.trans hc.2)
                    exact hfit
                  · have hzero : credited a (outs.map Prod.fst) = 0 := credited_eq_zero fun out hout hc => by
                      obtain ⟨o'', ho'', rfl⟩ := List.mem_map.mp hout
                      exact hmore ⟨o'', ho'', hc⟩
                    rw [hbalance a, Accounts.entry_insert, if_pos rfl, hzero]
                    exact hle
                · exact hfits o' hrest hcredit'
        · rename_i hplain
          obtain ⟨rfl, rfl⟩ := Prod.mk.inj (Except.ok.inj he)
          refine ⟨fun addr => ?_, fun o' ho' hcredit' => ?_⟩
          · rw [hbalance addr, List.map_cons, credited_cons, if_neg fun hc => hplain hc.1, Nat.zero_add]
          · rcases List.mem_cons.mp ho' with rfl | hrest
            · exact absurd hcredit' hplain
            · exact hfits o' hrest hcredit'
      · cases (Prod.mk.inj h).2

omit [Crypto] in
/-- Credits that are addressed and fit go through. -/
theorem outputs_run {txid : Hash} {outs : List (TxOut × Nat)} (u : UtxoSet) {accounts : Accounts}
    (h : ∀ o ∈ outs, o.1.predicate.isAccountCredit = true → ∃ addr, o.1.predicate.lockedAddress = some addr ∧
      (accounts.entry addr).balance + credited addr (outs.map Prod.fst) ≤ u128Max) :
    ∃ s : UtxoSet × Accounts, UtxoEffect.applyAll (outs.map (outputEffect txid mediaBlue)) u accounts = (s, .ok ()) := by
  induction outs generalizing u accounts with
  | nil => exact ⟨_, rfl⟩
  | cons o outs ih =>
      rw [List.map_cons, UtxoEffect.applyAll]
      by_cases hcredit : o.1.predicate.isAccountCredit = true
      · obtain ⟨a, haddr, hfits⟩ := h o List.mem_cons_self hcredit
        rw [List.map_cons, credited_cons, if_pos ⟨hcredit, haddr⟩] at hfits
        have hadd : checkedAdd128 (accounts.entry a).balance o.1.value = some ((accounts.entry a).balance + o.1.value) :=
          checkedAdd128_eq_some.mpr ⟨by omega, rfl⟩
        rw [outputEffect, if_pos hcredit, haddr]
        simp only [UtxoEffect.apply, hadd]
        refine ih u fun o' ho' hcredit' => ?_
        obtain ⟨addr, haddr', hfits'⟩ := h o' (List.mem_cons_of_mem o ho') hcredit'
        refine ⟨addr, haddr', ?_⟩
        rw [List.map_cons, credited_cons] at hfits'
        rw [Accounts.entry_insert]
        by_cases heq : a = addr
        · subst heq
          rw [if_pos ⟨hcredit, haddr⟩] at hfits'
          rw [if_pos rfl]
          show (accounts.entry a).balance + o.1.value + _ ≤ _
          omega
        · rw [if_neg heq]
          omega
      · rw [outputEffect, if_neg hcredit]
        simp only [UtxoEffect.apply]
        refine ih _ fun o' ho' hcredit' => ?_
        obtain ⟨addr, haddr', hfits'⟩ := h o' (List.mem_cons_of_mem o ho') hcredit'
        rw [List.map_cons, credited_cons, if_neg fun hc => hcredit hc.1, Nat.zero_add] at hfits'
        exact ⟨addr, haddr', hfits'⟩

end Attempt

/-! ### What a run leaves -/

section Runs

variable [Crypto] {mediaBlue : Nat} {start s : UtxoSet × Accounts} {order pool : List UtxoTx} {tx : UtxoTx}
  {op : OutPoint}

/-- What a spend puts under an outpoint. -/
def UtxoTx.output (tx : UtxoTx) (mediaBlue : Nat) (op : OutPoint) : Option TxOut :=
  tx.outputs[op.vout.toNat]?.map fun out => { out with createdBlue := mediaBlue }

/-- What is there after a spend it has created, or was there before. -/
theorem applied_output {u : UtxoSet} {accounts : Accounts} {fee : Nat}
    (h : applyUtxoTx u accounts tx mediaBlue = (s, .ok fee)) (hop : op ∈ s.1.entries) :
    op ∈ tx.created ∧ s.1.entries[op]? = tx.output mediaBlue op ∨
      op ∉ tx.created ∧ s.1.entries[op]? = u.entries[op]? := by
  obtain ⟨hlen, u₁, hentries, -, hrun⟩ := UtxoTx.applied_split h
  rw [outputs_set hrun] at hop ⊢
  by_cases hcreated : op ∈ tx.created
  · obtain ⟨o, ho, rfl⟩ := UtxoTx.mem_created_iff.mp hcreated
    have hidx : ∀ o ∈ tx.outputs.zipIdx, o.2 < 64 := fun o ho =>
      (List.snd_lt_of_mem_zipIdx ho).trans_le (by simpa using hlen)
    have hnodup : (tx.outputs.zipIdx.map Prod.snd).Nodup := by
      rw [List.zipIdx_map_snd]
      exact List.nodup_range'
    have hvout : (UInt32.ofNat o.2).toNat = o.2 := by
      rw [UInt32.toNat_ofNat']
      exact Nat.mod_eq_of_lt ((hidx o ho.1).trans (by norm_num))
    refine Or.inl ⟨hcreated, ?_⟩
    rw [(createOutputs_holds hnodup hidx ho).live, UtxoTx.output, hvout,
      List.mk_mem_zipIdx_iff_getElem?.mp ho.1]
    rfl
  · have hkept : u₁.Agree (createOutputs tx.txHash mediaBlue tx.outputs.zipIdx u₁) op :=
      createOutputs_agree fun o ho heq => hcreated (UtxoTx.mem_created_iff.mpr ⟨o, ho, heq.symm⟩)
    refine Or.inr ⟨hcreated, ?_⟩
    have hlive : op ∈ u₁.entries := by
      rw [← ExtTreeMap.isSome_getElem?_iff_mem] at hop ⊢
      rwa [← hkept.live]
    rw [hkept.live]
    by_cases htaken : op ∈ tx.inputs.map (·.previous)
    · rw [← ExtTreeMap.isSome_getElem?_iff_mem, hentries, if_pos htaken] at hlive
      cases hlive
    · rw [hentries, if_neg htaken]

/-- One more spend. -/
theorem run_concat (h : (order ++ [tx]).foldlM (UtxoTx.attempt mediaBlue) start = some s) :
    ∃ s₁ fee, order.foldlM (UtxoTx.attempt mediaBlue) start = some s₁ ∧
      applyUtxoTx s₁.1 s₁.2 tx mediaBlue = (s, .ok fee) := by
  rw [List.foldlM_append] at h
  obtain ⟨s₁, hrun, hlast⟩ := Option.bind_eq_some_iff.mp h
  rw [List.foldlM_cons] at hlast
  obtain ⟨s₂, hstep, hend⟩ := Option.bind_eq_some_iff.mp hlast
  obtain rfl := Option.some.inj hend
  obtain ⟨fee, happly⟩ := UtxoTx.attempt_eq_some.mp hstep
  exact ⟨s₁, fee, hrun, happly⟩

/-- A run moves what its spends take and create. -/
theorem run_moves (h : order.foldlM (UtxoTx.attempt mediaBlue) start = some s) :
    start.1.Moves (fun op => ∃ t ∈ order, t.Takes op) (fun op => ∃ t ∈ order, op ∈ t.created) s.1 := by
  induction order using List.reverseRecOn generalizing s with
  | nil =>
      obtain rfl := Option.some.inj h
      exact .refl _
  | append_singleton order tx ih =>
      obtain ⟨s₁, fee, hrun, happly⟩ := run_concat h
      refine ((ih hrun).mono ?_ ?_).trans ((applied_moves happly).mono ?_ ?_)
      · rintro op ⟨t, ht, hop⟩
        exact ⟨t, List.mem_append_left _ ht, hop⟩
      · rintro op ⟨t, ht, hop⟩
        exact ⟨t, List.mem_append_left _ ht, hop⟩
      · exact fun op hop => ⟨tx, by simp, hop⟩
      · exact fun op hop => ⟨tx, by simp, hop⟩

/-- **What an outpoint holds** after a run of spends that are new to the set depends on
who has made it. -/
theorem run_output (h : order.foldlM (UtxoTx.attempt mediaBlue) start = some s)
    (hfresh : ∀ t ∈ order, ¬ start.1.Known t.txHash) (hop : op ∈ s.1.entries) :
    (∃ t ∈ order, op.txid = t.txHash ∧ s.1.entries[op]? = t.output mediaBlue op) ∨
      (∀ t ∈ order, op.txid ≠ t.txHash) ∧ s.1.entries[op]? = start.1.entries[op]? := by
  induction order using List.reverseRecOn generalizing s with
  | nil =>
      obtain rfl := Option.some.inj h
      exact Or.inr ⟨fun t ht => absurd ht List.not_mem_nil, rfl⟩
  | append_singleton order tx ih =>
      obtain ⟨s₁, fee, hrun, happly⟩ := run_concat h
      rcases applied_output happly hop with ⟨hcreated, hcontent⟩ | ⟨-, hsame⟩
      · exact Or.inl ⟨tx, by simp, UtxoTx.txid_of_mem_created hcreated, hcontent⟩
      · have hbefore : op ∈ s₁.1.entries := by
          rw [← ExtTreeMap.isSome_getElem?_iff_mem] at hop ⊢
          rwa [← hsame]
        rcases ih hrun (fun t ht => hfresh t (List.mem_append_left _ ht)) hbefore with
          ⟨t, ht, hname, hcontent⟩ | ⟨hother, hcontent⟩
        · exact Or.inl ⟨t, List.mem_append_left _ ht, hname, hsame.trans hcontent⟩
        · refine Or.inr ⟨fun t ht hname => ?_, hsame.trans hcontent⟩
          rcases List.mem_append.mp ht with hold | hnew
          · exact hother t hold hname
          · have hstart : op ∈ start.1.entries := by
              rw [← ExtTreeMap.isSome_getElem?_iff_mem] at hop ⊢
              rwa [← hcontent, ← hsame]
            exact hfresh t ht ⟨op, hname, Or.inl hstart⟩

/-- What a run has made is free, unless the run takes it. -/
theorem run_free (h : order.foldlM (UtxoTx.attempt mediaBlue) start = some s) {p : UtxoTx} (hp : p ∈ order)
    (hcreated : op ∈ p.created) (hother : ∀ t ∈ order, ¬ t.Takes op) : s.1.Free op := by
  induction order using List.reverseRecOn generalizing s with
  | nil => cases hp
  | append_singleton order tx ih =>
      obtain ⟨s₁, fee, hrun, happly⟩ := run_concat h
      rcases List.mem_append.mp hp with hold | hnew
      · refine (applied_moves happly).free ?_ (hother tx (by simp))
        exact ih hrun hold fun t ht => hother t (List.mem_append_left _ ht)
      · obtain rfl := List.mem_singleton.mp hnew
        exact applied_created happly hcreated

/-- A spend that applies credits what its outputs say. -/
theorem applied_credited {u : UtxoSet} {accounts : Accounts} {fee : Nat}
    (h : applyUtxoTx u accounts tx mediaBlue = (s, .ok fee)) :
    (∀ addr, (s.2.entry addr).balance = (accounts.entry addr).balance + credited addr tx.outputs) ∧
    ∀ o ∈ tx.outputs, o.predicate.isAccountCredit = true →
      ∃ addr, o.predicate.lockedAddress = some addr ∧ (s.2.entry addr).balance ≤ u128Max := by
  obtain ⟨-, u₁, -, -, hrun⟩ := UtxoTx.applied_split h
  obtain ⟨hbalance, hfits⟩ := outputs_credited hrun
  rw [List.zipIdx_map_fst] at hbalance
  refine ⟨hbalance, fun o ho hcredit => ?_⟩
  obtain ⟨i, hi⟩ := List.mem_iff_getElem?.mp ho
  exact hfits (o, i) (List.mk_mem_zipIdx_iff_getElem?.mpr hi) hcredit

/-- **What a run credits** to an account: the outputs of all its spends, and no account
that it credits overflows. -/
theorem run_credited (h : order.foldlM (UtxoTx.attempt mediaBlue) start = some s) (addr : Address) :
    (s.2.entry addr).balance = (start.2.entry addr).balance + (order.map fun t => credited addr t.outputs).sum ∧
      ((∃ t ∈ order, ∃ o ∈ t.outputs, o.Credits addr) → (s.2.entry addr).balance ≤ u128Max) := by
  induction order using List.reverseRecOn generalizing s with
  | nil =>
      obtain rfl := Option.some.inj h
      exact ⟨rfl, fun ⟨t, ht, _⟩ => absurd ht List.not_mem_nil⟩
  | append_singleton order tx ih =>
      obtain ⟨s₁, fee, hrun, happly⟩ := run_concat h
      obtain ⟨hbefore, hfitsBefore⟩ := ih hrun
      obtain ⟨hbalance, hfits⟩ := applied_credited happly
      refine ⟨?_, fun hsome => ?_⟩
      · rw [hbalance addr, hbefore, List.map_append, List.sum_append, List.map_singleton, List.sum_singleton,
          Nat.add_assoc]
      · by_cases hlast : ∃ o ∈ tx.outputs, o.Credits addr
        · obtain ⟨o, ho, hcredit⟩ := hlast
          obtain ⟨addr', haddr', hfit⟩ := hfits o ho hcredit.1
          obtain rfl := Option.some.inj (haddr'.symm.trans hcredit.2)
          exact hfit
        · obtain ⟨t, ht, o, ho, hcredit⟩ := hsome
          have hold : t ∈ order := (List.mem_append.mp ht).resolve_right fun hnew => by
            rw [List.mem_singleton.mp hnew] at ho
            exact hlast ⟨o, ho, hcredit⟩
          rw [hbalance addr, credited_eq_zero fun o ho hc => hlast ⟨o, ho, hc⟩, Nat.add_zero]
          exact hfitsBefore ⟨t, hold, o, ho, hcredit⟩

/-! ### Another order -/

/-- A spend can come: every outpoint it takes is live or was made by those that are done. -/
def UtxoTx.Ready (live : UtxoSet) (done : List UtxoTx) (tx : UtxoTx) : Prop :=
  ∀ op, tx.Takes op → live.Free op ∨ ∃ p ∈ done, op ∈ p.created

/-- Spends that stay apart: they have different hashes, take different outpoints, and the
set has seen none of their outputs. -/
structure Apart (live : UtxoSet) (pool : List UtxoTx) : Prop where
  hashes : (pool.map UtxoTx.txHash).Nodup
  inputs : ∀ t ∈ pool, ∀ t' ∈ pool, t ≠ t' → ∀ op, t.Takes op → ¬ t'.Takes op
  fresh : ∀ t ∈ pool, ¬ live.Known t.txHash

theorem Apart.of_hash (h : Apart start.1 pool) {t t' : UtxoTx} (ht : t ∈ pool) (ht' : t' ∈ pool)
    (hname : t.txHash = t'.txHash) : t = t' := List.inj_on_of_nodup_map h.hashes ht ht' hname

theorem Apart.mono (h : Apart start.1 pool) {pool' : List UtxoTx} (hsub : pool'.Subperm pool) :
    Apart start.1 pool' where
  hashes := by
    obtain ⟨l, hl, hlsub⟩ := hsub
    exact (hl.map _).nodup_iff.mp (h.hashes.sublist (hlsub.map _))
  inputs t ht t' ht' := h.inputs t (hsub.subset ht) t' (hsub.subset ht')
  fresh t ht := h.fresh t (hsub.subset ht)

/-- A spend that is ready has its inputs free. -/
theorem ready_free (hpool : Apart start.1 pool) {done : List UtxoTx} (hsub : (done ++ [tx]).Subperm pool)
    (hrun : done.foldlM (UtxoTx.attempt mediaBlue) start = some s) (hready : tx.Ready start.1 done)
    (htakes : tx.Takes op) : s.1.Free op := by
  have hapart := hpool.mono hsub
  have hnew : tx ∉ done := fun hin => by
    have hnodup := List.Nodup.of_map _ hapart.hashes
    exact (List.nodup_append.mp hnodup).2.2 tx hin tx (by simp) rfl
  have hother : ∀ t ∈ done, ¬ t.Takes op := fun t ht hop =>
    hapart.inputs t (List.mem_append_left _ ht) tx (by simp) (fun heq => hnew (heq ▸ ht)) op hop htakes
  rcases hready op htakes with hfree | ⟨p, hp, hcreated⟩
  · exact (run_moves hrun).free hfree fun ⟨t, ht, hop⟩ => hother t ht hop
  · exact run_free hrun hp hcreated hother

/-- What a spend that applies was tested for. -/
theorem checked_of_applied {u : UtxoSet} {accounts : Accounts} {fee : Nat}
    (h : applyUtxoTx u accounts tx mediaBlue = (s, .ok fee)) : checkUtxoTx u tx mediaBlue = .ok () := by
  unfold applyUtxoTx at h
  split at h
  · cases (Prod.mk.inj h).2
  · assumption

omit [Crypto] in
theorem sum_le_of_subperm {α : Type} {xs ys : List α} (f : α → Nat) (h : xs.Subperm ys) :
    (xs.map f).sum ≤ (ys.map f).sum := by
  obtain ⟨l, hl, hsub⟩ := h
  rw [← (hl.map f).sum_eq]
  exact (hsub.map f).sum_le_sum fun _ _ => Nat.zero_le _

/-- **Spends that have applied once apply in every order** that has parents before their
children. -/
theorem tasks_of_run (hapart : Apart start.1 pool) (hperm : order.Perm pool)
    (hrun : order.foldlM (UtxoTx.attempt mediaBlue) start = some s) :
    Tasks (UtxoTx.attempt mediaBlue) start pool (UtxoTx.Ready start.1 · ·) where
  nodup := List.Nodup.of_map _ hapart.hashes
  mono hsub hready op hop := (hready op hop).imp id fun ⟨p, hp, hcreated⟩ => ⟨p, hsub hp, hcreated⟩
  step_iff := by
    intro done tx s₂ hsub hdone
    have hfreshDone : ∀ t ∈ done, ¬ start.1.Known t.txHash := fun t ht =>
      hapart.fresh t (hsub.subset (List.mem_append_left _ ht))
    constructor
    · rintro ⟨s', hstep⟩ op htakes
      obtain ⟨fee, happly⟩ := UtxoTx.attempt_eq_some.mp hstep
      obtain ⟨tin, htin, rfl⟩ := List.mem_map.mp htakes
      by_cases hcreated : ∃ p ∈ done, tin.previous ∈ p.created
      · exact Or.inr hcreated
      · exact Or.inl ((run_moves hdone).free_of (applied_inputs happly tin htin) hcreated)
    · intro hready
      -- the spend applied once, after others
      have hmem : tx ∈ order := hperm.mem_iff.mpr (hsub.subset (by simp))
      have hwhole := hrun
      obtain ⟨pre, post, rfl⟩ := List.append_of_mem hmem
      have hsplit : pre ++ tx :: post = (pre ++ [tx]) ++ post := by simp
      rw [hsplit, List.foldlM_append] at hrun
      obtain ⟨s₁', honce, -⟩ := Option.bind_eq_some_iff.mp hrun
      obtain ⟨s₁, fee, hpre, happly⟩ := run_concat honce
      have hpool : ∀ t ∈ pre, t ∈ pool := fun t ht => hperm.mem_iff.mp (List.mem_append_left _ ht)
      have hsame : ∀ tin ∈ tx.inputs, s₂.1.entries[tin.previous]? = s₁.1.entries[tin.previous]? := by
        intro tin htin
        have htakes : tx.Takes tin.previous := List.mem_map_of_mem htin
        have hlive₁ := (applied_inputs happly tin htin).1
        have hlive₂ := (ready_free hapart hsub hdone hready htakes).1
        have hnew : ∀ t ∈ pool, tin.previous.txid = t.txHash → tin.previous ∉ start.1.entries :=
          fun t ht hname hin => hapart.fresh t ht ⟨_, hname, Or.inl hin⟩
        have hstart : ∀ {u : UtxoSet}, tin.previous ∈ u.entries → u.entries[tin.previous]? = start.1.entries[tin.previous]? →
            tin.previous ∈ start.1.entries := by
          intro u hin heq
          rw [← ExtTreeMap.isSome_getElem?_iff_mem] at hin ⊢
          rwa [← heq]
        rcases run_output hpre (fun t ht => hapart.fresh t (hpool t ht)) hlive₁ with
          ⟨t, ht, hname, hcontent⟩ | ⟨-, hcontent⟩
        · rcases run_output hdone hfreshDone hlive₂ with ⟨t', ht', hname', hcontent'⟩ | ⟨-, hcontent'⟩
          · obtain rfl := hapart.of_hash (hpool t ht) (hsub.subset (List.mem_append_left _ ht')) (hname.symm.trans hname')
            rw [hcontent, hcontent']
          · exact absurd (hstart hlive₂ hcontent') (hnew t (hpool t ht) hname)
        · rcases run_output hdone hfreshDone hlive₂ with ⟨t', ht', hname', -⟩ | ⟨-, hcontent'⟩
          · exact absurd (hstart hlive₁ hcontent) (hnew t' (hsub.subset (List.mem_append_left _ ht')) hname')
          · rw [hcontent, hcontent']
      have hchecked := checked_of_applied happly
      have hcheck : checkUtxoTx s₂.1 tx mediaBlue = .ok () := (checkUtxoTx_congr hsame).trans hchecked
      obtain ⟨u, hspends, -⟩ := applyAll_spends s₂.2 (UtxoTx.validateForm_ok (checkUtxoTx_ok hchecked).1).2.2.2
        (fun op hop => (ready_free hapart hsub hdone hready hop).1)
        (fun op hop => (ready_free hapart hsub hdone hready hop).2)
      -- what it credits now is a part of what the whole run has credited
      have hfits : ∀ o ∈ tx.outputs.zipIdx, o.1.predicate.isAccountCredit = true →
          ∃ addr, o.1.predicate.lockedAddress = some addr ∧
            (s₂.2.entry addr).balance + credited addr (tx.outputs.zipIdx.map Prod.fst) ≤ u128Max := by
        intro o ho hcredit
        have hout : o.1 ∈ tx.outputs := List.fst_mem_of_mem_zipIdx ho
        obtain ⟨addr, haddr, -⟩ := (applied_credited happly).2 o.1 hout hcredit
        refine ⟨addr, haddr, ?_⟩
        obtain ⟨hall, hmax⟩ := run_credited hwhole addr
        have hbound := hmax ⟨tx, hmem, o.1, hout, hcredit, haddr⟩
        have hle := sum_le_of_subperm (fun t : UtxoTx => credited addr t.outputs) (hsub.trans hperm.symm.subperm)
        rw [List.map_append, List.sum_append, List.map_singleton, List.sum_singleton] at hle
        rw [List.zipIdx_map_fst, (run_credited hdone addr).1]
        omega
      obtain ⟨s', houtputs⟩ := @outputs_run mediaBlue tx.txHash tx.outputs.zipIdx u s₂.2 hfits
      refine ⟨s', UtxoTx.attempt_eq_some.mpr ⟨tx.fee, ?_⟩⟩
      have hmap : tx.inputs.map (fun tin => UtxoEffect.spend tin.previous)
          = (tx.inputs.map (·.previous)).map UtxoEffect.spend := by
        rw [List.map_map]
        rfl
      have heffects : UtxoEffect.applyAll (tx.effects mediaBlue) s₂.1 s₂.2 = (s', .ok ()) := by
        rw [UtxoTx.effects, hmap, applyAll_append _ _ _ _ hspends]
        exact houtputs
      rw [applyUtxoTx, hcheck]
      simp only [heffects]

end Runs

end HassanNode
