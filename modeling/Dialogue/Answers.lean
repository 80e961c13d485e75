/-!
# Answers

The answers of a conversation: each name with the values given under it, the oldest first. Names
are in increasing order of their code points, which is also the order of their bytes in UTF-8; no
name stands twice and none without a value, so equal contents are equal stores.
-/

namespace Dialogue

structure Answers where
  entries : List (String × List String)
  deriving Repr, DecidableEq

namespace Answers

def empty : Answers := ⟨[]⟩

instance : Inhabited Answers := ⟨empty⟩

def insert (name value : String) : List (String × List String) → List (String × List String)
  | [] => [(name, [value])]
  | (n, values) :: rest =>
    if name = n then (n, values ++ [value]) :: rest
    else if name < n then (name, [value]) :: (n, values) :: rest
    else (n, values) :: insert name value rest

def push (a : Answers) (name value : String) : Answers :=
  ⟨insert name value a.entries⟩

def ofPushes (pushes : List (String × String)) : Answers :=
  pushes.foldl (fun a p => a.push p.1 p.2) empty

def get? (a : Answers) (name : String) : Option (List String) :=
  a.entries.lookup name

def first? (a : Answers) (name : String) : Option String :=
  (a.get? name).bind List.head?

def last? (a : Answers) (name : String) : Option String :=
  (a.get? name).bind List.getLast?

def isEmpty (a : Answers) : Bool :=
  a.entries.isEmpty

end Answers

end Dialogue
