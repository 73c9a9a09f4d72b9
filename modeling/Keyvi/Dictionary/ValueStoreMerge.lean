import Mathlib

/-!
# Value stores in a merge

A dictionary file carries the payload of its value store, and the automaton holds handles into it.
A merge either adds every value again (`AddValueMerge`) or appends whole payloads and shifts the
handles (`AddValueAppendMerge`). `ValueStore` is what the merger uses of a value store type. Whether a
handle that is handed out reads the value it was added for depends on the type and on the values.
-/

namespace Keyvi.Dictionary

/-- A value store type: the reader, the store for re-adding and the store for appending. -/
structure ValueStore where
  Payload : Type
  Value : Type
  /-- what the reader finds under a handle -/
  read : Payload → Nat → Value
  checkCompatibility : Payload → Payload → Bool
  getMergeWeight : Nat → Nat
  MergeT : Type
  init : MergeT
  /-- the store after the call, the handle, and what is left in `no_minimization` -/
  addValueMerge : MergeT → Payload → Nat → MergeT × Nat × Bool
  /-- what the store writes to the new file -/
  written : MergeT → Payload
  addValueAppendMerge : List Payload → Nat → Nat → Nat
  appended : List Payload → Payload

namespace ValueStore

/-- `NullValueStore`: dictionaries of keys only. -/
def null : ValueStore where
  Payload := Unit
  Value := Unit
  read _ _ := ()
  checkCompatibility _ _ := true
  getMergeWeight _ := 0
  MergeT := Unit
  init := ()
  addValueMerge _ _ _ := ((), 0, false)
  written _ := ()
  addValueAppendMerge _ _ _ := 0
  appended _ := ()

end ValueStore

end Keyvi.Dictionary
