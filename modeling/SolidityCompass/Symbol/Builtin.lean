import SolidityCompass.Symbol.TypeRef

/-!
# Built-in members

Members that the language provides without a declaration: those of the global namespaces, and
those of arrays and addresses.
-/

namespace SolidityCompass

/-- A built-in member; for a method the names of its arguments are given. -/
structure Builtin where
  name : String
  detail : String
  arguments : Option (List String)
deriving Repr, DecidableEq, Inhabited

namespace Builtin

def property (name detail : String) : Builtin := ⟨name, detail, none⟩

def method (name detail : String) (arguments : List String) : Builtin :=
  ⟨name, detail, some arguments⟩

def isMethod (b : Builtin) : Bool := b.arguments.isSome

def ofBlock : List Builtin :=
  [property "coinbase" "(address): Current block miner's address",
   method "blockhash"
     ("(bytes32): DEPRECATED in 0.4.22, use blockhash(uint) instead. Hash of the given block, " ++
      "only works for the 256 most recent blocks excluding current") ["blockNumber"],
   property "difficulty" "(uint): current block difficulty",
   property "gaslimit" "(uint): current block gaslimit",
   property "number" "(uint): current block number",
   property "timestamp" "(uint): current block timestamp as seconds since unix epoch"]

def ofMessage : List Builtin :=
  [property "data" "(bytes): complete calldata",
   property "gas" "(uint): remaining gas DEPRECATED in 0.4.21, use gasleft()",
   property "sender" "(address): sender of the message (current call)",
   property "sig" "(bytes4): first four bytes of the calldata (i.e. function identifier)",
   property "value" "(uint): number of wei sent with the message"]

def ofTransaction : List Builtin :=
  [property "gas" "(uint): gas price of the transaction",
   property "origin" "(address): sender of the transaction (full call chain)"]

def ofAbi : List Builtin :=
  [method "encode" "encode(..) returns (bytes): ABI-encodes the given arguments" ["arg"],
   method "encodePacked"
     "encodePacked(..) returns (bytes): Performs packed encoding of the given arguments" ["arg"],
   method "encodeWithSelector"
     ("encodeWithSelector(bytes4,...) returns (bytes): ABI-encodes the given arguments starting " ++
      "from the second and prepends the given four-byte selector") ["bytes4", "arg"],
   method "encodeWithSignature"
     ("encodeWithSignature(string,...) returns (bytes): Equivalent to " ++
      "abi.encodeWithSelector(bytes4(keccak256(signature), ...)") ["signatureString", "arg"]]

def ofArray : List Builtin :=
  [property "length" "(uint): number of elements",
   method "push" "push(value): appends an element (storage arrays)" ["value"],
   method "pop" "pop(): removes the last element (storage arrays)" []]

def ofAddress : List Builtin :=
  [property "balance" "(uint256): balance of the address in wei",
   property "code" "(bytes): code at the address",
   property "codehash" "(bytes32): code hash of the address",
   method "transfer" "transfer(uint256 amount): sends amount wei, reverts on failure" ["amount"],
   method "send"
     "send(uint256 amount) returns (bool): sends amount wei, returns false on failure" ["amount"],
   method "call" "call(bytes memory) returns (bool, bytes memory): low-level CALL" ["data"],
   method "delegatecall"
     "delegatecall(bytes memory) returns (bool, bytes memory): low-level DELEGATECALL" ["data"],
   method "staticcall"
     "staticcall(bytes memory) returns (bool, bytes memory): low-level STATICCALL" ["data"]]

def globalNamespaces : List (String × List Builtin) :=
  [("block", ofBlock), ("msg", ofMessage), ("tx", ofTransaction), ("abi", ofAbi)]

/-- The members of the first namespace with whose name the given name ends. -/
def namespace? (name : String) : Option (List Builtin) :=
  (globalNamespaces.find? fun entry => entry.1.toList.isSuffixOf name.toList).map Prod.snd

end Builtin

end SolidityCompass
