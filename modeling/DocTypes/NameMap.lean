namespace DocTypes

structure NameMap (α : Type) where
  entries : List (String × α)
deriving DecidableEq, Repr

namespace NameMap

variable {α : Type}

def empty : NameMap α :=
  ⟨[]⟩

instance : Inhabited (NameMap α) :=
  ⟨empty⟩

def find? (m : NameMap α) (name : String) : Option α :=
  m.entries.lookup name

def insert (m : NameMap α) (name : String) (value : α) : NameMap α :=
  ⟨(name, value) :: m.entries.filter (·.1 != name)⟩

def ofList (pairs : List (String × α)) : NameMap α :=
  pairs.foldl (fun m pair => m.insert pair.1 pair.2) empty

@[simp]
theorem find?_insert_self (m : NameMap α) (name : String) (value : α) :
    (m.insert name value).find? name = some value := by
  simp [find?, insert]

end NameMap

end DocTypes
