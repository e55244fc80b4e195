import Std.Data.ExtTreeSet

/-! # Members

What is recorded of one class: its method and field names in order of
appearance, and the set of dotted names that its listing mentions.
-/

namespace MemberIndex

structure Members where
  methods : List String := []
  fields : List String := []
  dependencies : Std.ExtTreeSet String := ∅

namespace Members

def empty : Members := {}

def append (m n : Members) : Members where
  methods := m.methods ++ n.methods
  fields := m.fields ++ n.fields
  dependencies := m.dependencies ∪ n.dependencies

instance : EmptyCollection Members := ⟨empty⟩
instance : Append Members := ⟨append⟩

@[ext] theorem ext {m n : Members} (hm : m.methods = n.methods) (hf : m.fields = n.fields)
    (hd : m.dependencies = n.dependencies) : m = n := by
  cases m; cases n; simp_all

end Members

end MemberIndex
