import Mathlib
import HassanNode.Lib.Fallible
import HassanNode.Core.Bech32m
import HassanNode.Ledger.Registry

/-!
# HassanNode.Ledger.RegistrySound

Who can move a title (`registry.rs`).

`RegistryMove` says once what a successful arm of `apply_op` does to the
registry and the accounts; `applyAction_move` is the inversion every later
argument uses (here for ownership, in `Ledger/Value.lean` for value).

Over whole sequences of operations, a title is **safe** (`TitleSafe`) when its
owner changes only by the owner's signature, on the transfer or on the
`OpenEscrow` that locked it, and when it is locked only by its owner. The
`OpenEscrow` arm compares the title's owner with the *named* seller and never
with the signer, so safety holds exactly on the sequences that contain no
`OpensForeign` step.
-/

namespace HassanNode

open Std (ExtTreeMap)

/-! ### What a successful arm does -/

section Move

variable [Crypto]

/-- The effect of a successful arm, from the state it starts in (with the
signer's nonce already bumped) to the state it leaves. -/
inductive RegistryMove (ctx : RegistryCtx) (signer : Address) (r : RegistryState)
    (accounts : Accounts) : RegistryAction → RegistryState → Accounts → Prop
  | issue {owner cls description seed deed} (hfresh : deriveTitleId signer seed ∉ r.titles)
      (hlock : deed.escrowId = none) (howner : deed.currentOwner = owner)
      (hhistory : ∃ event : TitleEvent, deed.history = [event] ∧ event.to_ = owner) :
      RegistryMove ctx signer r accounts (.issueTitle owner cls description seed)
        { r with titles := r.titles.insert (deriveTitleId signer seed) deed } accounts
  | transfer {titleId to_ memo deed} (hdeed : r.titles[titleId]? = some deed)
      (howner : deed.currentOwner = signer) (hlock : deed.escrowId = none) :
      RegistryMove ctx signer r accounts (.transferTitle titleId to_ memo)
        { r with titles := r.titles.insert titleId
                  (deed.moveTo ctx (utf8 "transferred") to_ memo) } accounts
  | open {buyer seller arbiter amount titleId memo seed timeoutBlue esc}
      (hpos : amount ≠ 0)
      (htitle : ∀ tid, titleId = some tid → ∃ deed, r.titles[tid]? = some deed ∧
        deed.currentOwner = seller ∧ deed.escrowId = none)
      (hfresh : deriveEscrowId signer seed ∉ r.escrows)
      (hseller : esc.seller = seller) (hid : esc.titleId = titleId) (hzero : esc.funded = 0)
      (hbuyer : esc.buyer = buyer) (hamount : esc.amount = amount) (hstatus : esc.status = .open_) :
      RegistryMove ctx signer r accounts
        (.openEscrow buyer seller arbiter amount titleId memo seed timeoutBlue)
        { titles := RegistryState.lockTitle r.titles (deriveEscrowId signer seed) titleId,
          escrows := r.escrows.insert (deriveEscrowId signer seed) esc } accounts
  | fund {escrowId amount esc acct status} (hesc : r.escrows[escrowId]? = some esc)
      (hopen : esc.status = .open_ ∨ esc.status = .funded)
      (hacct : accounts[signer]? = some acct) (hbal : amount ≤ acct.balance)
      (hstatus : status = .funded ∨ status = esc.status) (hbuyer : signer = esc.buyer)
      (hlevel : status = if satAdd128 esc.funded amount ≥ esc.amount then .funded else esc.status) :
      RegistryMove ctx signer r accounts (.fundEscrow escrowId amount)
        { r with escrows := r.escrows.insert escrowId
                  { esc with funded := satAdd128 esc.funded amount, status } }
        (accounts.insert signer { acct with balance := acct.balance - amount })
  | release {escrowId esc} (hesc : r.escrows[escrowId]? = some esc)
      (hfunded : esc.status = .funded) (hbuyer : signer = esc.buyer) :
      RegistryMove ctx signer r accounts (.releaseEscrow escrowId)
        { titles := RegistryState.releaseTitle r.titles ctx esc.buyer esc.titleId,
          escrows := r.escrows.insert escrowId { esc with funded := 0, status := .released } }
        (RegistryState.creditAccount accounts esc.seller esc.funded)
  | refund {escrowId esc action}
      (haction : action = .refundEscrow escrowId ∨ action = .timeoutClaimEscrow escrowId)
      (hesc : r.escrows[escrowId]? = some esc)
      (hopen : esc.status = .open_ ∨ esc.status = .funded) :
      RegistryMove ctx signer r accounts action
        (r.refund accounts escrowId esc).1 (r.refund accounts escrowId esc).2

theorem issueTitle_inv {r r' : RegistryState} {ctx : RegistryCtx} {signer owner : Address}
    {cls : AssetClass} {description : Bytes} {seed : Hash}
    (h : r.issueTitle ctx signer owner cls description seed = .ok r') :
    deriveTitleId signer seed ∉ r.titles ∧ ∃ deed : TitleDeed, deed.escrowId = none ∧
      deed.currentOwner = owner ∧ (∃ event : TitleEvent, deed.history = [event] ∧ event.to_ = owner) ∧
      r' = { r with titles := r.titles.insert (deriveTitleId signer seed) deed } := by
  simp only [RegistryState.issueTitle] at h
  split at h
  · cases h
  · rename_i hfresh
    cases h
    exact ⟨hfresh, _, rfl, rfl, ⟨_, rfl, rfl⟩, rfl⟩

omit [Crypto] in
theorem checkEscrowTitle_ok {r : RegistryState} {seller : Address} {tid : Hash}
    (h : r.checkEscrowTitle seller (some tid) = .ok ()) :
    ∃ deed, r.titles[tid]? = some deed ∧ deed.currentOwner = seller ∧ deed.escrowId = none := by
  simp only [RegistryState.checkEscrowTitle] at h
  split at h
  · cases h
  · rename_i deed hdeed
    split at h
    · cases h
    · rename_i howner
      split at h
      · cases h
      · rename_i hlock
        exact ⟨deed, hdeed, not_not.mp howner, by simpa using hlock⟩

theorem openEscrow_inv {r r' : RegistryState} {ctx : RegistryCtx} {signer buyer seller : Address}
    {arbiter : Option Address} {amount : Nat} {titleId : Option Hash} {memo : Bytes} {seed : Hash}
    {timeoutBlue : Nat}
    (h : r.openEscrow ctx signer buyer seller arbiter amount titleId memo seed timeoutBlue
      = .ok r') :
    amount ≠ 0 ∧ r.checkEscrowTitle seller titleId = .ok () ∧
      deriveEscrowId signer seed ∉ r.escrows ∧
      ∃ esc : EscrowAccount, esc.seller = seller ∧ esc.titleId = titleId ∧ esc.funded = 0 ∧
        esc.buyer = buyer ∧ esc.amount = amount ∧ esc.status = .open_ ∧
        r' = { titles := RegistryState.lockTitle r.titles (deriveEscrowId signer seed) titleId,
               escrows := r.escrows.insert (deriveEscrowId signer seed) esc } := by
  simp only [RegistryState.openEscrow] at h
  split at h
  · cases h
  · rename_i hpos
    cases hcheck : r.checkEscrowTitle seller titleId with
    | error e => rw [hcheck] at h; cases h
    | ok u =>
        rw [hcheck] at h
        simp only [bind, Except.bind] at h
        split at h
        · cases h
        · rename_i hfresh
          cases h
          exact ⟨hpos, rfl, hfresh, _, rfl, rfl, rfl, rfl, rfl, rfl, rfl⟩

/-- **Inversion of the arms**: a successful arm is one of the six moves. -/
theorem applyAction_move {r r' : RegistryState} {accounts accounts' : Accounts}
    {ctx : RegistryCtx} {signer : Address} {action : RegistryAction}
    (h : r.applyAction accounts ctx signer action = .ok (r', accounts')) :
    RegistryMove ctx signer r accounts action r' accounts' := by
  cases action with
  | issueTitle owner cls description seed =>
      obtain ⟨r₁, hr₁, heq⟩ := Except.map_eq_ok h
      cases heq
      obtain ⟨hfresh, deed, hlock, howner, hhistory, rfl⟩ := issueTitle_inv hr₁
      exact .issue hfresh hlock howner hhistory
  | transferTitle titleId to_ memo =>
      obtain ⟨r₁, hr₁, heq⟩ := Except.map_eq_ok h
      cases heq
      simp only [RegistryState.transferTitle] at hr₁
      split at hr₁
      · cases hr₁
      · rename_i deed hdeed
        split at hr₁
        · cases hr₁
        · rename_i howner
          split at hr₁
          · cases hr₁
          · rename_i hlock
            cases hr₁
            exact .transfer hdeed (not_not.mp howner) (by simpa using hlock)
  | openEscrow buyer seller arbiter amount titleId memo seed timeoutBlue =>
      obtain ⟨r₁, hr₁, heq⟩ := Except.map_eq_ok h
      cases heq
      obtain ⟨hpos, hcheck, hfresh, esc, hseller, hid, hzero, hbuyer, hamount, hstatus, rfl⟩ :=
        openEscrow_inv hr₁
      refine .open hpos ?_ hfresh hseller hid hzero hbuyer hamount hstatus
      rintro tid rfl
      exact checkEscrowTitle_ok hcheck
  | fundEscrow escrowId amount =>
      simp only [RegistryState.applyAction, RegistryState.fundEscrow] at h
      split at h
      · cases h
      · rename_i esc hesc
        split at h
        · cases h
        · rename_i hbuyer
          split at h
          · cases h
          · rename_i hopen
            split at h
            · cases h
            · rename_i acct hacct
              split at h
              · cases h
              · rename_i hbal
                cases h
                refine .fund hesc (by tauto) hacct (not_lt.mp hbal) ?_ (not_not.mp hbuyer) rfl
                split
                · exact Or.inl rfl
                · exact Or.inr rfl
  | releaseEscrow escrowId =>
      simp only [RegistryState.applyAction, RegistryState.releaseEscrow] at h
      split at h
      · cases h
      · rename_i esc hesc
        split at h
        · cases h
        · rename_i hbuyer
          split at h
          · cases h
          · rename_i hfunded
            cases h
            exact .release hesc (not_not.mp hfunded) (not_not.mp hbuyer)
  | refundEscrow escrowId =>
      simp only [RegistryState.applyAction, RegistryState.refundEscrow] at h
      split at h
      · cases h
      · rename_i esc hesc
        split at h
        · cases h
        · rename_i hauth
          split at h
          · cases h
          · cases h
            refine .refund (Or.inl rfl) hesc ?_
            revert hauth
            unfold RegistryState.refundAuthorized
            cases esc.status <;> simp
  | timeoutClaimEscrow escrowId =>
      simp only [RegistryState.applyAction, RegistryState.timeoutClaimEscrow] at h
      split at h
      · cases h
      · rename_i esc hesc
        split at h
        · cases h
        · split at h
          · cases h
          · rename_i hfunded
            split at h
            · cases h
            · split at h
              · cases h
              · cases h
                exact .refund (Or.inr rfl) hesc (Or.inr (not_not.mp hfunded))

/-- **Inversion of `apply_op`**: either the registry is untouched, or the
operation verified, its nonce was current and its arm made a move. -/
theorem applyOp_cases (r : RegistryState) (accounts : Accounts) (op : RegistryOp)
    (ctx : RegistryCtx) :
    (r.applyOp accounts op ctx).1.1 = r ∨
    (op.verify = true ∧ op.nonce = (accounts.entry op.signerAddress).nonce ∧
      RegistryMove ctx op.signerAddress r (RegistryState.bumpNonce accounts op.signerAddress)
        op.action (r.applyOp accounts op ctx).1.1 (r.applyOp accounts op ctx).1.2) := by
  unfold RegistryState.applyOp
  dsimp only
  split
  · exact Or.inl rfl
  · rename_i hverify
    split
    · exact Or.inl rfl
    · rename_i hnonce
      cases hact : r.applyAction (RegistryState.bumpNonce accounts op.signerAddress) ctx
          op.signerAddress op.action with
      | error e => exact Or.inl rfl
      | ok st =>
          refine Or.inr ⟨by simpa using hverify, not_not.mp hnonce, ?_⟩
          exact applyAction_move hact

end Move

/-! ### Title safety -/

/-- A title of `updateTitle`: the one named is updated, every other is kept. -/
theorem getElem?_updateTitle (titles : ExtTreeMap Hash TitleDeed) (f : TitleDeed → TitleDeed)
    (target : Option Hash) (tid : Hash) :
    (RegistryState.updateTitle titles f target)[tid]? =
      if target = some tid then titles[tid]?.map f else titles[tid]? := by
  cases target with
  | none => simp [RegistryState.updateTitle]
  | some t =>
      simp only [RegistryState.updateTitle]
      by_cases ht : t = tid
      · subst ht
        cases h : titles[t]? with
        | none => simp [h]
        | some deed => simp
      · cases h : titles[t]? with
        | none => simp [ht]
        | some deed => simp [ht, ExtTreeMap.getElem?_insert]

/-- One call of `apply_op`. -/
structure RegistryCall where
  op : RegistryOp
  ctx : RegistryCtx

/-- The registry along a sequence of calls, with a log of who signed the
operation that last took each title's `escrow_id` from `None` to `Some`. -/
structure RegistryRun where
  registry : RegistryState
  accounts : Accounts
  lockedBy : Hash → Option Address

namespace RegistryRun

def lockOf (r : RegistryState) (tid : Hash) : Option Hash := r.titles[tid]?.bind (·.escrowId)

variable [Crypto]

/-- The run after one more call. -/
def step (s : RegistryRun) (call : RegistryCall) : RegistryRun :=
  let after := (s.registry.applyOp s.accounts call.op call.ctx).1
  { registry := after.1
    accounts := after.2
    lockedBy := fun tid =>
      if lockOf s.registry tid = none ∧ lockOf after.1 tid ≠ none then
        some call.op.signerAddress
      else s.lockedBy tid }

/-- The run of a sequence of calls from an empty registry. -/
def after (accounts : Accounts) (calls : List RegistryCall) : RegistryRun :=
  calls.foldl step { registry := {}, accounts, lockedBy := fun _ => none }

/-- **Title safety of one call.** A title whose owner changes had its owner's
signature, on this operation or on the one that locked it; a title that gets
locked is locked by its owner. -/
def TitleSafe (s : RegistryRun) (call : RegistryCall) : Prop :=
  ∀ tid deed deed', s.registry.titles[tid]? = some deed →
    (s.step call).registry.titles[tid]? = some deed' →
    (deed'.currentOwner ≠ deed.currentOwner →
      call.op.signerAddress = deed.currentOwner ∨
        deed.escrowId ≠ none ∧ s.lockedBy tid = some deed.currentOwner) ∧
    (deed.escrowId = none → deed'.escrowId ≠ none →
      call.op.signerAddress = deed.currentOwner)

/-- A call that opens an escrow over an unlocked title of somebody else: it
passes every check of the `OpenEscrow` arm, and its signer is not the seller it
names. -/
def OpensForeign (s : RegistryRun) (op : RegistryOp) : Prop :=
  ∃ buyer seller arbiter amount tid memo seed timeoutBlue deed,
    op.action = .openEscrow buyer seller arbiter amount (some tid) memo seed timeoutBlue ∧
    op.verify = true ∧ op.nonce = (s.accounts.entry op.signerAddress).nonce ∧ amount ≠ 0 ∧
    s.registry.titles[tid]? = some deed ∧ deed.currentOwner = seller ∧ deed.escrowId = none ∧
    deriveEscrowId op.signerAddress seed ∉ s.registry.escrows ∧ op.signerAddress ≠ seller

/-- **The lock invariant.** A title of an escrow that can still be released is
locked by that escrow, belongs to its seller and was locked by the seller. -/
def LockInv (s : RegistryRun) : Prop :=
  ∀ eid esc tid, s.registry.escrows[eid]? = some esc →
    (esc.status = .open_ ∨ esc.status = .funded) → esc.titleId = some tid →
    ∃ deed, s.registry.titles[tid]? = some deed ∧ deed.escrowId = some eid ∧
      deed.currentOwner = esc.seller ∧ s.lockedBy tid = some esc.seller

/-! #### One call -/

/-- The log of a title that was already locked does not change. -/
theorem lockedBy_step {s : RegistryRun} {call : RegistryCall} {tid eid : Hash} {deed : TitleDeed}
    (hdeed : s.registry.titles[tid]? = some deed) (hlock : deed.escrowId = some eid) :
    (s.step call).lockedBy tid = s.lockedBy tid := by
  simp [step, lockOf, hdeed, hlock]

/-- The log of a title that this call locks names its signer. -/
theorem lockedBy_step_new {s : RegistryRun} {call : RegistryCall} {tid eid : Hash}
    {deed deed' : TitleDeed} (hdeed : s.registry.titles[tid]? = some deed)
    (hfree : deed.escrowId = none) (hdeed' : (s.step call).registry.titles[tid]? = some deed')
    (hlock : deed'.escrowId = some eid) :
    (s.step call).lockedBy tid = some call.op.signerAddress := by
  have hafter : lockOf (s.step call).registry tid ≠ none := by simp [lockOf, hdeed', hlock]
  have hbefore : lockOf s.registry tid = none := by simp [lockOf, hdeed, hfree]
  exact if_pos ⟨hbefore, hafter⟩

/-- The invariant carries over to an escrow whose title this call does not
touch. -/
theorem LockInv.frame {s : RegistryRun} {call : RegistryCall} (hinv : s.LockInv) {eid tid : Hash}
    {esc : EscrowAccount} (hesc : s.registry.escrows[eid]? = some esc)
    (hactive : esc.status = .open_ ∨ esc.status = .funded) (htid : esc.titleId = some tid)
    (hkeep : ∀ deed, s.registry.titles[tid]? = some deed → deed.escrowId = some eid →
      (s.step call).registry.titles[tid]? = some deed) :
    ∃ deed, (s.step call).registry.titles[tid]? = some deed ∧ deed.escrowId = some eid ∧
      deed.currentOwner = esc.seller ∧ (s.step call).lockedBy tid = some esc.seller := by
  obtain ⟨deed, hdeed, hlock, howner, hby⟩ := hinv eid esc tid hesc hactive htid
  exact ⟨deed, hkeep deed hdeed hlock, hlock, howner, (lockedBy_step hdeed hlock).trans hby⟩

omit [Crypto] in
/-- Two live escrows never share a title. -/
theorem LockInv.unique {s : RegistryRun} (hinv : s.LockInv) {eid eid' tid : Hash}
    {esc esc' : EscrowAccount} (hesc : s.registry.escrows[eid]? = some esc)
    (hactive : esc.status = .open_ ∨ esc.status = .funded) (htid : esc.titleId = some tid)
    (hesc' : s.registry.escrows[eid']? = some esc')
    (hactive' : esc'.status = .open_ ∨ esc'.status = .funded) (htid' : esc'.titleId = some tid) :
    eid = eid' := by
  obtain ⟨deed, hdeed, hlock, -, -⟩ := hinv eid esc tid hesc hactive htid
  obtain ⟨deed', hdeed', hlock', -, -⟩ := hinv eid' esc' tid hesc' hactive' htid'
  rw [hdeed] at hdeed'
  cases hdeed'
  rw [hlock] at hlock'
  exact Option.some.inj hlock'

/-- Closing a live escrow, whatever happens to its own title, keeps the
invariant. -/
theorem LockInv.close {s : RegistryRun} {call : RegistryCall} (hinv : s.LockInv) {escrowId : Hash}
    {esc closed : EscrowAccount} {f : TitleDeed → TitleDeed}
    (hesc : s.registry.escrows[escrowId]? = some esc)
    (hactive : esc.status = .open_ ∨ esc.status = .funded)
    (hclosed : closed.status ≠ .open_ ∧ closed.status ≠ .funded)
    (htitles : (s.step call).registry.titles
      = RegistryState.updateTitle s.registry.titles f esc.titleId)
    (hescrows : (s.step call).registry.escrows = s.registry.escrows.insert escrowId closed) :
    (s.step call).LockInv := by
  intro eid e tid he hact htid
  rw [hescrows, ExtTreeMap.getElem?_insert] at he
  by_cases heq : escrowId = eid
  · subst heq
    simp only [Std.compare_self, ↓reduceIte, Option.some.injEq] at he
    subst he
    exact absurd hact (by tauto)
  · simp only [Std.LawfulEqCmp.compare_eq_iff_eq, heq, ↓reduceIte] at he
    refine hinv.frame he hact htid ?_
    intro deed hdeed hlock
    rw [htitles, getElem?_updateTitle]
    split
    · rename_i htarget
      exact absurd (hinv.unique hesc hactive htarget he hact htid) heq
    · exact hdeed

/-- **Step lemma.** A call that opens no foreign escrow keeps the lock
invariant. -/
theorem LockInv.step {s : RegistryRun} {call : RegistryCall} (hinv : s.LockInv)
    (hown : ¬ s.OpensForeign call.op) : (s.step call).LockInv := by
  rcases applyOp_cases s.registry s.accounts call.op call.ctx with hsame | ⟨hverify, hnonce, hmove⟩
  · have hreg : (s.step call).registry = s.registry := hsame
    intro eid esc tid hesc hactive htid
    rw [hreg] at hesc
    refine hinv.frame hesc hactive htid ?_
    intro deed hdeed _
    rw [hreg]
    exact hdeed
  · have hmove' : RegistryMove call.ctx call.op.signerAddress s.registry
        (RegistryState.bumpNonce s.accounts call.op.signerAddress) call.op.action
        (s.step call).registry (s.step call).accounts := hmove
    generalize hr' : (s.step call).registry = r' at hmove'
    generalize (s.step call).accounts = accounts' at hmove'
    generalize haction : call.op.action = action at hmove'
    cases hmove' with
    | @issue owner cls description seed _ hfresh _ =>
        intro eid esc tid hesc hactive htid
        rw [hr'] at hesc
        refine hinv.frame hesc hactive htid ?_
        intro deed hdeed _
        have hne : deriveTitleId call.op.signerAddress seed ≠ tid := by
          rintro rfl
          exact hfresh (ExtTreeMap.mem_iff_isSome_getElem?.mpr (by rw [hdeed]; rfl))
        rw [hr']
        simpa [ExtTreeMap.getElem?_insert, hne] using hdeed
    | transfer hdeed₀ _ hfree =>
        intro eid esc tid hesc hactive htid
        rw [hr'] at hesc
        refine hinv.frame hesc hactive htid ?_
        intro deed hdeed hlock
        rw [hr']
        simp only [ExtTreeMap.getElem?_insert, Std.LawfulEqCmp.compare_eq_iff_eq]
        split
        · rename_i heq
          subst heq
          rw [hdeed₀] at hdeed
          cases hdeed
          rw [hfree] at hlock
          cases hlock
        · exact hdeed
    | @«open» buyer seller arbiter amount titleId memo seed timeoutBlue esc₀ hpos htitle hfresh
        hseller hid _ =>
        intro eid esc tid hesc hactive htid
        rw [hr'] at hesc
        simp only [ExtTreeMap.getElem?_insert, Std.LawfulEqCmp.compare_eq_iff_eq] at hesc
        split at hesc
        · -- the escrow this call opened: its title was free and its signer is the seller
          rename_i heq
          cases hesc
          rw [hid] at htid
          obtain ⟨deed, hdeed, howner, hfree⟩ := htitle tid htid
          have hafter : (s.step call).registry.titles[tid]?
              = some { deed with escrowId := some eid } := by
            rw [hr']
            simp [RegistryState.lockTitle, getElem?_updateTitle, htid, hdeed, heq]
          have hsigner : call.op.signerAddress = seller := by
            by_contra hne
            subst htid
            exact hown ⟨buyer, seller, arbiter, amount, tid, memo, seed, timeoutBlue, deed,
              haction, hverify, hnonce, hpos, hdeed, howner, hfree, hfresh, hne⟩
          refine ⟨_, hafter, rfl, howner.trans hseller.symm, ?_⟩
          rw [lockedBy_step_new hdeed hfree hafter rfl, hsigner, hseller]
        · refine hinv.frame hesc hactive htid ?_
          intro deed hdeed hlock
          rw [hr']
          simp only [RegistryState.lockTitle, getElem?_updateTitle]
          split
          · rename_i htarget
            obtain ⟨deed₀, hdeed₀, -, hfree⟩ := htitle tid htarget
            rw [hdeed₀] at hdeed
            cases hdeed
            rw [hfree] at hlock
            cases hlock
          · exact hdeed
    | @fund escrowId amount esc₀ acct status hesc₀ hopen _ _ hstatus =>
        intro eid esc tid hesc hactive htid
        rw [hr'] at hesc
        simp only [ExtTreeMap.getElem?_insert, Std.LawfulEqCmp.compare_eq_iff_eq] at hesc
        have hkeep : ∀ deed, s.registry.titles[tid]? = some deed → deed.escrowId = some eid →
            (s.step call).registry.titles[tid]? = some deed := by
          intro deed hdeed _
          rw [hr']
          exact hdeed
        split at hesc
        · rename_i heq
          subst heq
          cases hesc
          obtain ⟨deed, hdeed, hlock, howner, hby⟩ := hinv.frame hesc₀ hopen htid hkeep
          exact ⟨deed, hdeed, hlock, howner, hby⟩
        · exact hinv.frame hesc hactive htid hkeep
    | release hesc hfunded =>
        refine hinv.close hesc (Or.inr hfunded) ?_ (congrArg RegistryState.titles hr')
          (congrArg RegistryState.escrows hr')
        simp
    | refund _ hesc hopen =>
        refine hinv.close hesc hopen ?_ (congrArg RegistryState.titles hr')
          (congrArg RegistryState.escrows hr')
        simp

/-- A call that opens a foreign escrow locks the title, against its owner. -/
theorem TitleSafe.not_opensForeign {s : RegistryRun} {call : RegistryCall}
    (hsafe : s.TitleSafe call) : ¬ s.OpensForeign call.op := by
  rintro ⟨buyer, seller, arbiter, amount, tid, memo, seed, timeoutBlue, deed, haction, hverify,
    hnonce, hpos, hdeed, howner, hfree, hfresh, hne⟩
  have hcheck : s.registry.checkEscrowTitle seller (some tid) = .ok () := by
    simp [RegistryState.checkEscrowTitle, hdeed, howner, hfree]
  have hafter : (s.step call).registry.titles[tid]?
      = some { deed with escrowId := some (deriveEscrowId call.op.signerAddress seed) } := by
    simp [step, RegistryState.applyOp, hverify, hnonce, haction, RegistryState.applyAction,
      RegistryState.openEscrow, hpos, hcheck, hfresh, bind, Except.bind, Except.map,
      RegistryState.lockTitle, getElem?_updateTitle, hdeed]
  have hsigner := (hsafe tid deed _ hdeed hafter).2 hfree (by simp)
  exact hne (hsigner.trans howner)

/-- **Step lemma.** Under the lock invariant, a call that opens no foreign
escrow is safe for every title. -/
theorem LockInv.titleSafe {s : RegistryRun} {call : RegistryCall} (hinv : s.LockInv)
    (hown : ¬ s.OpensForeign call.op) : s.TitleSafe call := by
  intro tid deed deed' hdeed hdeed'
  rcases applyOp_cases s.registry s.accounts call.op call.ctx with hsame | ⟨hverify, hnonce, hmove⟩
  · have hreg : (s.step call).registry = s.registry := hsame
    rw [hreg, hdeed] at hdeed'
    cases hdeed'
    exact ⟨fun h => absurd rfl h, fun h h' => absurd h h'⟩
  · have hmove' : RegistryMove call.ctx call.op.signerAddress s.registry
        (RegistryState.bumpNonce s.accounts call.op.signerAddress) call.op.action
        (s.step call).registry (s.step call).accounts := hmove
    generalize hr' : (s.step call).registry = r' at hmove' hdeed'
    generalize (s.step call).accounts = accounts' at hmove'
    generalize haction : call.op.action = action at hmove'
    have hkept : deed' = deed →
        (deed'.currentOwner ≠ deed.currentOwner →
          call.op.signerAddress = deed.currentOwner ∨
            deed.escrowId ≠ none ∧ s.lockedBy tid = some deed.currentOwner) ∧
        (deed.escrowId = none → deed'.escrowId ≠ none →
          call.op.signerAddress = deed.currentOwner) := by
      rintro rfl
      exact ⟨fun h => absurd rfl h, fun h h' => absurd h h'⟩
    cases hmove' with
    | @issue owner cls description seed _ hfresh _ =>
        have hne : deriveTitleId call.op.signerAddress seed ≠ tid := by
          rintro rfl
          exact hfresh (ExtTreeMap.mem_iff_isSome_getElem?.mpr (by rw [hdeed]; rfl))
        simp only [ExtTreeMap.getElem?_insert, Std.LawfulEqCmp.compare_eq_iff_eq, hne,
          ↓reduceIte, hdeed] at hdeed'
        exact hkept (Option.some.inj hdeed').symm
    | @transfer titleId to_ memo deed₀ hdeed₀ howner hfree =>
        simp only [ExtTreeMap.getElem?_insert, Std.LawfulEqCmp.compare_eq_iff_eq] at hdeed'
        split at hdeed'
        · rename_i heq
          subst heq
          rw [hdeed₀] at hdeed
          cases hdeed
          exact ⟨fun _ => Or.inl howner.symm, fun _ _ => howner.symm⟩
        · rw [hdeed] at hdeed'
          exact hkept (Option.some.inj hdeed').symm
    | @«open» buyer seller arbiter amount titleId memo seed timeoutBlue _ hpos htitle hfresh _ _ _ =>
        simp only [RegistryState.lockTitle, getElem?_updateTitle] at hdeed'
        split at hdeed'
        · rename_i htarget
          obtain ⟨deed₀, hdeed₀, howner, hfree⟩ := htitle tid htarget
          rw [hdeed] at hdeed₀
          cases hdeed₀
          simp only [hdeed, Option.map_some, Option.some.injEq] at hdeed'
          subst hdeed'
          refine ⟨fun h => absurd rfl h, fun _ _ => ?_⟩
          by_contra hne
          subst htarget
          exact hown ⟨buyer, seller, arbiter, amount, tid, memo, seed, timeoutBlue, deed, haction,
            hverify, hnonce, hpos, hdeed, howner, hfree, hfresh, fun h => hne (h.trans howner.symm)⟩
        · rw [hdeed] at hdeed'
          exact hkept (Option.some.inj hdeed').symm
    | fund _ _ _ _ _ =>
        rw [hdeed] at hdeed'
        exact hkept (Option.some.inj hdeed').symm
    | release hesc hfunded =>
        simp only [RegistryState.releaseTitle, getElem?_updateTitle] at hdeed'
        split at hdeed'
        · rename_i htarget
          obtain ⟨deed₀, hdeed₀, hlock, howner, hby⟩ := hinv _ _ tid hesc (Or.inr hfunded) htarget
          rw [hdeed] at hdeed₀
          cases hdeed₀
          simp only [hdeed, Option.map_some, Option.some.injEq] at hdeed'
          subst hdeed'
          refine ⟨fun _ => Or.inr ⟨by simp [hlock], by rw [hby, howner]⟩, ?_⟩
          intro hfree
          rw [hlock] at hfree
          cases hfree
        · rw [hdeed] at hdeed'
          exact hkept (Option.some.inj hdeed').symm
    | refund _ hesc hopen =>
        simp only [RegistryState.refund, RegistryState.unlockTitle, getElem?_updateTitle] at hdeed'
        split at hdeed'
        · simp only [hdeed, Option.map_some, Option.some.injEq] at hdeed'
          subst hdeed'
          exact ⟨fun h => absurd rfl h, fun _ h => absurd rfl h⟩
        · rw [hdeed] at hdeed'
          exact hkept (Option.some.inj hdeed').symm

/-! #### Whole sequences -/

theorem after_concat (accounts : Accounts) (calls : List RegistryCall) (call : RegistryCall) :
    after accounts (calls ++ [call]) = (after accounts calls).step call := by
  simp [after]

/-- The lock invariant holds after every sequence without foreign escrows. -/
theorem lockInv_after (accounts : Accounts) (calls : List RegistryCall)
    (hown : ∀ pre call, pre ++ [call] <+: calls → ¬ (after accounts pre).OpensForeign call.op) :
    (after accounts calls).LockInv := by
  induction calls using List.reverseRecOn with
  | nil =>
      intro eid esc tid hesc
      simp [after] at hesc
  | append_singleton pre call ih =>
      rw [after_concat]
      refine LockInv.step (ih ?_) (hown pre call (List.prefix_refl _))
      intro pre' call' hpre
      exact hown pre' call' (hpre.trans (List.prefix_append pre [call]))

/-- **Titles are safe exactly on the sequences that open no foreign escrow**,
from an empty registry and any account map. -/
theorem titleSafe_iff_no_foreign_open (accounts : Accounts) (calls : List RegistryCall) :
    (∀ pre call, pre ++ [call] <+: calls → (after accounts pre).TitleSafe call) ↔
      ∀ pre call, pre ++ [call] <+: calls → ¬ (after accounts pre).OpensForeign call.op := by
  constructor
  · intro hsafe pre call hpre
    exact (hsafe pre call hpre).not_opensForeign
  · intro hown pre call hpre
    refine LockInv.titleSafe (lockInv_after accounts pre ?_) (hown pre call hpre)
    intro pre' call' hpre'
    exact hown pre' call' (hpre'.trans ((List.prefix_append pre [call]).trans hpre))

end RegistryRun

/-! #### A foreign escrow -/

namespace RegistryRun

/-- The key of one party: `n` repeated. -/
def partyKey (n : UInt8) : Bytes := List.replicate Params.pqPublicKeySize n

/-- Operation number `nonce` of party `n`. -/
def partyCall (n : UInt8) (nonce : Nat) (action : RegistryAction) : RegistryCall where
  op := { fromPubkey := partyKey n, action, nonce, chainId := Params.chainId,
          signature := List.replicate Params.pqSignatureSize 0 }
  ctx := { timestamp := 0, height := 0, settlementIdHex := [], blueScore := 0 }

def partyAddress (n : UInt8) : Address := @Address.ofPubkey sampleCrypto (partyKey n)

/-- The title party 1 issues to itself. -/
def sampleTitle : Hash := @deriveTitleId sampleCrypto (partyAddress 1) Hash.zero

/-- Party 1 issues a title to itself. -/
def issueOwn : RegistryCall :=
  partyCall 1 0 (.issueTitle (partyAddress 1) .vehicle [] Hash.zero)

/-- Party 2 opens an escrow over it, naming party 1 as the seller. -/
def openForeign : RegistryCall :=
  partyCall 2 0 (.openEscrow (partyAddress 2) (partyAddress 1) none 1 (some sampleTitle) []
    Hash.zero 0)

/-- Where the sample digest keeps the bytes of a party's key. -/
theorem partyKey_mark : ∀ i : Fin 18,
    ((@addressHash sampleCrypto (partyKey (UInt8.ofNat i))).asBytes.take Address.payloadLen)[16]?
      = some (UInt8.ofNat i) := by
  decide +kernel

/-- Different parties have addresses that are not equivalent. -/
theorem partyAddress_apart {i j : Nat} (hi : i < 18) (hj : j < 18) (hne : i ≠ j) :
    Address.equivalent (partyAddress (UInt8.ofNat i)) (partyAddress (UInt8.ofNat j)) = false := by
  refine Bool.eq_false_iff.mpr fun h => hne ?_
  have hsame := congrArg (·[16]?) ((@Address.equivalent_ofPubkey sampleCrypto _ _).mp h)
  have hmark := ((partyKey_mark ⟨i, hi⟩).symm.trans hsame).trans (partyKey_mark ⟨j, hj⟩)
  have hval : (UInt8.ofNat i).toNat = (UInt8.ofNat j).toNat := congrArg UInt8.toNat (Option.some.inj hmark)
  have hbyte : ∀ {k : Nat}, k < 18 → (UInt8.ofNat k).toNat = k := fun hk =>
    UInt8.toNat_ofNat_of_lt' (lt_trans hk (by decide))
  rwa [hbyte hi, hbyte hj] at hval

theorem partyAddress_ne : partyAddress 2 ≠ partyAddress 1 := by
  intro heq
  have hapart := partyAddress_apart (by decide : 2 < 18) (by decide : 1 < 18) (by decide)
  exact absurd ((congrArg (Address.equivalent · (partyAddress 1)) heq).trans (Address.equivalent_refl _))
    (Bool.eq_false_iff.mp hapart)

theorem verify_partyCall (n : UInt8) (nonce : Nat) (action : RegistryAction) :
    @RegistryOp.verify sampleCrypto (partyCall n nonce action).op = true :=
  verifyPq512_sample _ _ (by simp [partyCall, partyKey]) (by simp [partyCall])

/-- The registry after party 1's operation: its title, unlocked. -/
theorem titles_after_issueOwn :
    ((@after sampleCrypto ∅ [issueOwn]).registry.titles[sampleTitle]?.map
      fun deed => (deed.currentOwner, deed.escrowId)) = some (partyAddress 1, none) := by
  decide +kernel

/-- From the empty state, a title is locked by an operation its owner never
signed. -/
theorem open_escrow_locks_foreign_title :
    ¬ ∀ (calls pre : List RegistryCall) (call : RegistryCall), pre ++ [call] <+: calls →
      @TitleSafe sampleCrypto (@after sampleCrypto ∅ pre) call := by
  let := sampleCrypto
  intro hsafe
  have hcall := hsafe [issueOwn, openForeign] [issueOwn] openForeign (by simp)
  obtain ⟨deed, hdeed, hfields⟩ := Option.map_eq_some_iff.mp titles_after_issueOwn
  rw [Prod.mk.injEq] at hfields
  refine hcall.not_opensForeign ⟨partyAddress 2, partyAddress 1, none, 1, sampleTitle, [],
    Hash.zero, 0, deed, rfl, verify_partyCall 2 0 _, ?_, one_ne_zero, hdeed, hfields.1, hfields.2,
    ?_, partyAddress_ne⟩
  · decide +kernel
  · decide +kernel

end RegistryRun

end HassanNode
