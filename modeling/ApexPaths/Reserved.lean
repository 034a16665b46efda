/-!
Names that the graph builder keeps for methods it makes, and the tags of literals.
-/

namespace ApexPaths.Reserved

/-- The method that wraps a trigger's body. -/
def triggerInvoke : String := "invoke"

def constructorName : String := "<init>"

/-- The method that calls every static block of a class in order. -/
def staticBlockInvoker : String := "<staticBlockInvoker>"

def setterParameter : String := "value"

/-- The method of the static block with the given number, counted from 1. -/
def staticBlock (ordinal : Nat) : String := "<staticBlock" ++ toString ordinal ++ ">"

def getter (property : String) : String := "__get_" ++ property

def setter (property : String) : String := "__set_" ++ property

/-! ## Kinds of made methods -/

def kindStaticBlock : String := "StaticBlock"

def kindStaticBlockInvoker : String := "StaticBlockInvoker"

def kindGetter : String := "PropertyGetter"

def kindSetter : String := "PropertySetter"

def kindTriggerInvoke : String := "TriggerInvoke"

/-! ## Literal tags -/

def literalString : String := "STRING"

def literalInteger : String := "INTEGER"

def literalLong : String := "LONG"

def literalDecimal : String := "DECIMAL"

def literalTrue : String := "TRUE"

def literalFalse : String := "FALSE"

def literalNull : String := "NULL"

end ApexPaths.Reserved
