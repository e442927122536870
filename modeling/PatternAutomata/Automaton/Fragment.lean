import PatternAutomata.Automaton.Edit

/-!
# Fragments

A fragment is a part of an automaton with one entry and one exit. Each rule below makes a fragment
out of smaller ones inside the same automaton: `concat` joins two of them at their boundaries, the
others add a new entry and a new exit. A rule that continues from an exit clears its accepting flag,
so the exit of the result is its only accepting state. Nothing is assumed about the fragments that
are passed in; a rule that meets a missing state stops there.
-/

namespace PatternAutomata

structure Fragment where
  entry : StateId
  exit : StateId
  deriving DecidableEq, Repr

namespace Fragment

open EditM

def epsilon : EditM Fragment := do
  let entry ← addState false
  let exit ← addState true
  addEpsilon entry exit
  return ⟨entry, exit⟩

def symbol (c : Char) : EditM Fragment := do
  let entry ← addState false
  let exit ← addState true
  addEdge entry c exit
  return ⟨entry, exit⟩

def concat (first second : Fragment) : EditM Fragment := do
  addEpsilon first.exit second.entry
  setAccepting first.exit false
  return ⟨first.entry, second.exit⟩

def union (first second : Fragment) : EditM Fragment := do
  let entry ← addState false
  addEpsilon entry first.entry
  addEpsilon entry second.entry
  let exit ← addState true
  addEpsilon first.exit exit
  setAccepting first.exit false
  addEpsilon second.exit exit
  setAccepting second.exit false
  return ⟨entry, exit⟩

def closure (inner : Fragment) : EditM Fragment := do
  let entry ← addState false
  let exit ← addState true
  addEpsilon entry exit
  addEpsilon entry inner.entry
  addEpsilon inner.exit exit
  addEpsilon inner.exit inner.entry
  setAccepting inner.exit false
  return ⟨entry, exit⟩

end Fragment

end PatternAutomata
