namespace StringStack

structure Stack where
  items : Array String
  deriving DecidableEq

namespace Stack

def empty : Stack := ⟨#[]⟩

def toList (s : Stack) : List String := s.items.toList.reverse

def size (s : Stack) : Nat := s.items.size

def push (s : Stack) (v : String) : Stack := ⟨s.items.push v⟩

/-- The element `offset` places below the head. -/
def get (s : Stack) (offset : Nat) (inside : offset < s.size) : String :=
  have : s.items.size - 1 - offset < s.items.size := by unfold size at inside; omega
  s.items[s.items.size - 1 - offset]

def pop (s : Stack) : Stack := ⟨s.items.pop⟩

def swap (s : Stack) (a b : Nat) (ha : a < s.size) (hb : b < s.size) : Stack :=
  ⟨s.items.swap (s.items.size - 1 - a) (s.items.size - 1 - b) (by unfold size at ha; omega)
    (by unfold size at hb; omega)⟩

theorem length_toList (s : Stack) : s.toList.length = s.size := by simp [toList, size]

theorem toList_push (s : Stack) (v : String) : (s.push v).toList = v :: s.toList := by
  simp [toList, push]

theorem toList_pop (s : Stack) : s.pop.toList = s.toList.tail := by
  simp [toList, pop]

theorem getElem?_toList (s : Stack) (offset : Nat) (inside : offset < s.size) :
    s.toList[offset]? = some (s.get offset inside) := by
  have : offset < s.items.toList.length := inside
  simp [toList, get, List.getElem?_reverse this]

theorem get_push (s : Stack) (v : String) (inside : 0 < (s.push v).size) :
    (s.push v).get 0 inside = v := by
  simp [get, push]

theorem pop_push (s : Stack) (v : String) : (s.push v).pop = s := by simp [pop, push]

theorem size_push (s : Stack) (v : String) : (s.push v).size = s.size + 1 := by simp [size, push]

theorem size_swap (s : Stack) (a b : Nat) (ha : a < s.size) (hb : b < s.size) :
    (s.swap a b ha hb).size = s.size := by simp [size, swap]

end Stack
end StringStack
