/-!
The eight registers. A register has a name, which is written behind a percent sign, and a code of
three bits, which is packed into the header of an instruction.
-/
namespace FourVin

inductive Register where
  | ra | rb | rc | rd | re | rf | rsp | rbp
  deriving DecidableEq

namespace Register

def all : List Register := [ra, rb, rc, rd, re, rf, rsp, rbp]

def name : Register → String
  | ra => "RA"
  | rb => "RB"
  | rc => "RC"
  | rd => "RD"
  | re => "RE"
  | rf => "RF"
  | rsp => "RSP"
  | rbp => "RBP"

/-- The register with the given name; letter case matters. -/
def ofName? (name : String) : Option Register := all.find? fun r => r.name = name

def text (r : Register) : String := "%" ++ r.name

def code : Register → UInt8
  | ra => 0
  | rb => 1
  | rc => 2
  | rd => 3
  | re => 4
  | rf => 5
  | rsp => 6
  | rbp => 7

def ofCode? (code : UInt8) : Option Register := all.find? fun r => r.code = code

structure CodeError where
  code : UInt8

def CodeError.message (_ : CodeError) : String := "registers may only have codes from 0-7 inclusive"

def ofCode (code : UInt8) : Except CodeError Register :=
  match ofCode? code with
  | some r => .ok r
  | none => .error ⟨code⟩

theorem mem_all (r : Register) : r ∈ all := by
  cases r <;> decide

theorem ofName?_name (r : Register) : ofName? r.name = some r := by
  cases r <;> rfl

theorem ofName?_eq_some_iff {name : String} {r : Register} :
    ofName? name = some r ↔ r.name = name := by
  constructor
  · intro h
    simpa using List.find?_some h
  · rintro rfl
    exact ofName?_name r

theorem ofCode?_code (r : Register) : ofCode? r.code = some r := by
  cases r <;> rfl

theorem ofCode_code (r : Register) : ofCode r.code = .ok r := by
  rw [ofCode, ofCode?_code]

end Register

end FourVin
