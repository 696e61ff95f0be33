/-! # JSON values

Objects keep their members in the order of the text, repeated names included. A literal of a tree stores its
value in canonical form: names sorted, and of several members of one name the last. -/

namespace SharpTree.Json

inductive Number where
  | int (value : Int)
  | float (value : Float)
deriving DecidableEq

inductive Value where
  | null
  | bool (value : Bool)
  | num (value : Number)
  | str (value : String)
  | arr (items : List Value)
  | obj (members : List (String × Value))

namespace Value

mutual
def beq : Value → Value → Bool
  | .null, .null => true
  | .bool a, .bool b => a == b
  | .num a, .num b => a == b
  | .str a, .str b => a == b
  | .arr as, .arr bs => beqItems as bs
  | .obj as, .obj bs => beqMembers as bs
  | _, _ => false
def beqItems : List Value → List Value → Bool
  | [], [] => true
  | a :: as, b :: bs => beq a b && beqItems as bs
  | _, _ => false
def beqMembers : List (String × Value) → List (String × Value) → Bool
  | [], [] => true
  | (k, a) :: as, (l, b) :: bs => k == l && beq a b && beqMembers as bs
  | _, _ => false
end

mutual
theorem eq_of_beq : ∀ {a b : Value}, beq a b = true → a = b
  | .null, b, h => by cases b <;> simp_all [beq]
  | .bool _, b, h => by cases b <;> simp_all [beq]
  | .num _, b, h => by cases b <;> simp_all [beq]
  | .str _, b, h => by cases b <;> simp_all [beq]
  | .arr as, b, h => by
    cases b <;> simp only [beq, Bool.false_eq_true] at h
    rw [eq_of_beqItems h]
  | .obj as, b, h => by
    cases b <;> simp only [beq, Bool.false_eq_true] at h
    rw [eq_of_beqMembers h]
theorem eq_of_beqItems : ∀ {as bs : List Value}, beqItems as bs = true → as = bs
  | [], bs, h => by cases bs <;> simp_all [beqItems]
  | a :: as, bs, h => by
    cases bs <;> simp only [beqItems, Bool.false_eq_true, Bool.and_eq_true] at h
    rw [eq_of_beq h.1, eq_of_beqItems h.2]
theorem eq_of_beqMembers : ∀ {as bs : List (String × Value)}, beqMembers as bs = true → as = bs
  | [], bs, h => by cases bs <;> simp_all [beqMembers]
  | (k, a) :: as, bs, h => by
    cases bs <;> simp only [beqMembers, Bool.false_eq_true, Bool.and_eq_true, beq_iff_eq] at h
    rw [h.1.1, eq_of_beq h.1.2, eq_of_beqMembers h.2]
end

mutual
theorem beq_self : ∀ a : Value, beq a a = true
  | .null => rfl
  | .bool _ | .num _ | .str _ => by simp [beq]
  | .arr as => by simp only [beq, beqItems_self as]
  | .obj as => by simp only [beq, beqMembers_self as]
theorem beqItems_self : ∀ as : List Value, beqItems as as = true
  | [] => rfl
  | a :: as => by simp only [beqItems, beq_self a, beqItems_self as, Bool.and_self]
theorem beqMembers_self : ∀ as : List (String × Value), beqMembers as as = true
  | [] => rfl
  | (k, a) :: as => by simp only [beqMembers, beq_self a, beqMembers_self as, BEq.rfl, Bool.and_self]
end

instance : DecidableEq Value := fun a b =>
  if h : beq a b = true then .isTrue (eq_of_beq h) else .isFalse fun e => h (e ▸ beq_self a)

/-- Puts a member into a list sorted by name, unless a member of that name is there. -/
def insertNew (key : String) (value : Value) : List (String × Value) → List (String × Value)
  | [] => [(key, value)]
  | (k, v) :: rest =>
    if key < k then (key, value) :: (k, v) :: rest
    else if key = k then (k, v) :: rest
    else (k, v) :: insertNew key value rest

mutual
/-- The value with the members of every object sorted by name, the last one kept of each name. -/
def canonical : Value → Value
  | .arr items => .arr (canonicalItems items)
  | .obj members => .obj (canonicalMembers members)
  | v => v
def canonicalItems : List Value → List Value
  | [] => []
  | v :: vs => v.canonical :: canonicalItems vs
def canonicalMembers : List (String × Value) → List (String × Value)
  | [] => []
  | (k, v) :: ms => insertNew k v.canonical (canonicalMembers ms)
end

end Value

end SharpTree.Json
