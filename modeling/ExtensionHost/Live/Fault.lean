import ExtensionHost.Message.LiveUpdate
import ExtensionHost.Schema.Basic

namespace ExtensionHost

inductive LiveFault where
  | missingKey
  | missingItem
  | missingIndex
  | outOfRange (index : Int) (length : Nat)
  | invalidCount (count : Int)
  | absentKey (key : String)
  | unsupported (operation : OperationKind) (kind : LiveKind)
  | undecodable (fault : MessageFault)

def LiveFault.text : LiveFault → String
  | missingKey => "operation is missing its key"
  | missingItem => "operation is missing its item"
  | missingIndex => "operation is missing its index"
  | outOfRange index length => s!"index {index} is out of range for {length} items"
  | invalidCount count => s!"invalid remove count {count}"
  | absentKey key => s!"key '{key}' is not present"
  | unsupported operation .array => s!"{operation.name} is not supported on a live array"
  | unsupported operation .object => s!"{operation.name} is not supported on a live map"
  | undecodable fault => fault.text

end ExtensionHost
