import Tessra.Core.Id

namespace Tessra.Core

/-! CBOR values, without the floats and tags that canonical bytes forbid. -/

inductive Value
  | integer (i : ℤ)
  | bytes (b : Bytes)
  | text (t : String)
  | bool (b : Bool)
  | null
  | array (items : List Value)
  | map (entries : List (Value × Value))

namespace Value

mutual
def beq : Value → Value → Bool
  | .integer i, .integer j => i = j
  | .bytes b, .bytes c => b = c
  | .text t, .text u => t = u
  | .bool b, .bool c => b = c
  | .null, .null => true
  | .array l, .array m => beqItems l m
  | .map l, .map m => beqEntries l m
  | _, _ => false

def beqItems : List Value → List Value → Bool
  | [], [] => true
  | v :: l, w :: m => beq v w && beqItems l m
  | _, _ => false

def beqEntries : List (Value × Value) → List (Value × Value) → Bool
  | [], [] => true
  | (k, v) :: l, (k', v') :: m => beq k k' && (beq v v' && beqEntries l m)
  | _, _ => false
end

mutual
theorem beq_iff : (v w : Value) → (beq v w = true ↔ v = w)
  | .integer _, w => by cases w <;> simp [beq]
  | .bytes _, w => by cases w <;> simp [beq]
  | .text _, w => by cases w <;> simp [beq]
  | .bool _, w => by cases w <;> simp [beq]
  | .null, w => by cases w <;> simp [beq]
  | .array l, w => by cases w <;> simp [beq, beqItems_iff l]
  | .map l, w => by cases w <;> simp [beq, beqEntries_iff l]

theorem beqItems_iff : (l m : List Value) → (beqItems l m = true ↔ l = m)
  | [], m => by cases m <;> simp [beqItems]
  | v :: l, m => by cases m <;> simp [beqItems, beq_iff v, beqItems_iff l]

theorem beqEntries_iff :
    (l m : List (Value × Value)) → (beqEntries l m = true ↔ l = m)
  | [], m => by cases m <;> simp [beqEntries]
  | (k, v) :: l, m => by
      rcases m with _ | ⟨⟨k', v'⟩, m⟩
      · simp [beqEntries]
      · simp [beqEntries, beq_iff k, beq_iff v, beqEntries_iff l, and_assoc]
end

instance : DecidableEq Value := fun v w => decidable_of_iff _ (beq_iff v w)

instance : Inhabited Value := ⟨.null⟩

def asText : Value → Option String
  | .text t => some t
  | _ => none

def asBool : Value → Option Bool
  | .bool b => some b
  | _ => none

def lookupText (k : String) (entries : List (Value × Value)) : Option Value :=
  (entries.find? fun e => e.1 = .text k).map Prod.snd

mutual
def depth : Value → ℕ
  | .array l => depthItems l + 1
  | .map l => depthEntries l + 1
  | _ => 0

def depthItems : List Value → ℕ
  | [] => 0
  | v :: l => max (depth v) (depthItems l)

def depthEntries : List (Value × Value) → ℕ
  | [] => 0
  | (_, v) :: l => max (depth v) (depthEntries l)
end

end Value

def escapeChar (c : Char) : String :=
  if c = '"' then "\\\""
  else if c = '\\' then "\\\\"
  else if c = '\n' then "\\n"
  else if c = '\r' then "\\r"
  else if c = '\t' then "\\t"
  else String.ofList [c]

def quote (s : String) : String := "\"" ++ String.join (s.toList.map escapeChar) ++ "\""

def debugList (items : List String) : String := "[" ++ ", ".intercalate items ++ "]"

namespace Value

mutual
def debug : Value → String
  | .integer i => s!"Integer(Integer({i}))"
  | .bytes b => s!"Bytes({debugList (b.map fun x => toString x.val)})"
  | .text t => s!"Text({quote t})"
  | .bool b => s!"Bool({b})"
  | .null => "Null"
  | .array l => s!"Array({debugList (debugItems l)})"
  | .map l => s!"Map({debugList (debugEntries l)})"

def debugItems : List Value → List String
  | [] => []
  | v :: l => debug v :: debugItems l

def debugEntries : List (Value × Value) → List String
  | [] => []
  | (k, v) :: l => s!"({debug k}, {debug v})" :: debugEntries l
end

end Value

end Tessra.Core
