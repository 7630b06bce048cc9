import SolidityCompass.Editor.Suggestion

/-!
# The catalog

Suggestions that are offered everywhere: elementary types, keywords, units, and the functions and
variables that are known without a declaration.
-/

namespace SolidityCompass

namespace Catalog

def sizes : List Nat :=
  (List.range 32).map (· + 1)

def elementaryTypes : List String :=
  ["address", "string", "bytes", "byte", "int", "uint", "bool", "hash"] ++
    sizes.flatMap fun n =>
      ["int" ++ toString (8 * n), "uint" ++ toString (8 * n), "bytes" ++ toString n]

def types : List Suggestion :=
  elementaryTypes.map fun name =>
    { label := name, kind := .keyword, detail := some (name ++ " type") }

def plainKeywords : List String :=
  ["modifier", "mapping", "break", "continue", "delete", "else", "for", "if", "new", "return",
   "returns", "while", "using", "private", "public", "external", "internal", "payable",
   "nonpayable", "view", "pure", "case", "do", "else", "finally", "in", "instanceof", "return",
   "throw", "try", "catch", "typeof", "yield", "void", "virtual", "override"]

def kindKeywords : List (String × ItemKind) :=
  [("contract", .contract), ("library", .contract), ("storage", .field), ("memory", .field),
   ("var", .field), ("constant", .constant), ("immutable", .keyword),
   ("constructor", .constructor), ("event", .event), ("import", .module), ("enum", .enum),
   ("struct", .struct), ("function", .function)]

def keywords : List Suggestion :=
  plainKeywords.map (fun word => { label := word, kind := .keyword }) ++
    kindKeywords.map fun (word, kind) => { label := word, kind := kind }

def unit (name detail : String) : Suggestion :=
  { label := name, kind := .unit, detail := some detail }

def units : List Suggestion :=
  ["wei", "gwei", "finney", "szabo", "ether"].map (fun name => unit name (name ++ ": ether unit")) ++
    ["seconds", "minutes", "hours", "days", "weeks"].map
      (fun name => unit name (name ++ ": time unit")) ++
    [unit "years" "DEPRECATED: years: time unit"]

def global (label : String) (kind : ItemKind) (detail : String) (snippet : Snippet) : Suggestion :=
  { label := label, kind := kind, detail := some detail, insertion := some (.snippet snippet) }

def functions : List Suggestion :=
  [global "assert" .function
     ("assert(bool condition): throws if the condition is not met - to be used for " ++
      "internal errors.")
     (.call "assert" ["condition"] ";"),
   global "gasleft" .function
     "gasleft(): returns the remaining gas"
     (.call "gasleft" [] ";"),
   global "unicode" .function
     "unicode: converts string into unicode"
     (⟨[.text "unicode\"", .slot 1 "text", .text "\""]⟩),
   global "blockhash" .function
     ("blockhash(uint blockNumber): hash of the given block - only works for 256 most " ++
      "recent, excluding current, blocks")
     (.call "blockhash" ["blockNumber"] ";"),
   global "require" .method
     ("require(bool condition): reverts if the condition is not met - to be used for " ++
      "errors in inputs or external components.")
     (.call "require" ["condition"] ";"),
   global "require" .method
     ("require(bool condition, string message): reverts if the condition is not met - to " ++
      "be used for errors in inputs or external components. Also provides an error " ++
      "message.")
     (.call "require" ["condition", "message"] ";"),
   global "revert" .method
     "revert(): abort execution and revert state changes"
     (.call "revert" [] ";"),
   global "addmod" .method
     ("addmod(uint x, uint y, uint k) returns (uint): compute (x + y) % k where the " ++
      "addition is performed with arbitrary precision and does not wrap around at 2**256")
     (.call "addmod" ["x", "y", "k"] ""),
   global "mulmod" .method
     ("mulmod(uint x, uint y, uint k) returns (uint): compute (x * y) % k where the " ++
      "multiplication is performed with arbitrary precision and does not wrap around at " ++
      "2**256")
     (.call "mulmod" ["x", "y", "k"] ""),
   global "keccak256" .method
     ("keccak256(...) returns (bytes32): compute the Ethereum-SHA-3 (Keccak-256) hash of " ++
      "the (tightly packed) arguments")
     (.call "keccak256" ["x"] ""),
   global "sha256" .method
     "sha256(...) returns (bytes32): compute the SHA-256 hash of the (tightly packed) arguments"
     (.call "sha256" ["x"] ""),
   global "sha3" .method
     "sha3(...) returns (bytes32): alias to keccak256"
     (.call "sha3" ["x"] ""),
   global "ripemd160" .method
     "ripemd160(...) returns (bytes20): compute RIPEMD-160 hash of the (tightly packed) arguments"
     (.call "ripemd160" ["x"] ""),
   global "ecrecover" .method
     ("ecrecover(bytes32 hash, uint8 v, bytes32 r, bytes32 s) returns (address): recover " ++
      "the address associated with the public key from elliptic curve signature or return " ++
      "zero on error")
     (.call "ecrecover" ["hash", "v", "r", "s"] "")]

def globalVariables : List Suggestion :=
  [("block", "Current block"), ("msg", "Current Message"),
   ("now", "(uint): current block timestamp (alias for block.timestamp)"),
   ("tx", "Current transaction"), ("abi", "ABI encoding / decoding")].map fun (label, detail) =>
    { label := label, kind := .variable, detail := some detail }

def all : List Suggestion :=
  types ++ keywords ++ units ++ functions ++ globalVariables

end Catalog

end SolidityCompass
