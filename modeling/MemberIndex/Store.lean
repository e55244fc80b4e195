import MemberIndex.Records

/-! # Stores

Records as the hands that share them see them. Every hand has entries of its own to put, one
behind the other. A put is one step, in which the hand is given the record that it replaces.
-/

namespace MemberIndex

/-- A put that was made: by which hand, of what, and the record that the hand was given for it. -/
structure Put where
  hand : Nat
  identity : String
  members : Members
  replaced : Option Members

namespace Put

def entry (p : Put) : String × Members := (p.identity, p.members)

def returned? (p : Put) : Option (String × Members) := p.replaced.map (p.identity, ·)

end Put

/-- Shared records, what each hand has yet to put, and the puts that were made. -/
structure Store where
  records : Records := ∅
  waiting : List (List (String × Members))
  puts : List Put := []

namespace Store

def init (entries : List (List (String × Members))) : Store := { waiting := entries }

def put (s : Store) (hand : Nat) (e : String × Members) (rest : List (String × Members)) :
    Store where
  records := (s.records.put e.1 e.2).2
  waiting := s.waiting.set hand rest
  puts := s.puts ++ [⟨hand, e.1, e.2, (s.records.put e.1 e.2).1⟩]

/-- Any hand that has something to put makes the next of its puts. -/
inductive Step : Store → Store → Prop
  | put (s : Store) {hand : Nat} {e : String × Members} {rest : List (String × Members)}
    (h : s.waiting[hand]? = some (e :: rest)) : Step s (s.put hand e rest)

end Store

end MemberIndex
