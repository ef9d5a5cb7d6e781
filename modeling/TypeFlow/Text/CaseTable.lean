import TypeFlow.Text.Ranges

/-!
# Case pairs

Data of the character database: which characters change under conversion to upper and to lower
case, which characters have a case, and which are skipped when a neighbour's case is looked for.
Most characters that change come in pairs, whose conversions undo each other.
-/

namespace TypeFlow.Text

/-- A run of characters that move by one offset: `first`, `first + step`, …, `last`. -/
structure CaseRun where
  first : Nat
  last : Nat
  step : Nat
  offset : Int

/-- A number for an integer: even ones stand for `0, 1, …` and odd ones for `-1, -2, …`. -/
def signed (n : Nat) : Int := if n % 2 = 0 then n / 2 else -(n / 2) - 1

/-- Runs in ascending order, with the distance of their ends, the step and the offset. -/
def runsOf (groups : String) : List CaseRun :=
  (readGroups groups).map fun (first, span, step, move) => ⟨first, first + span, step, signed move⟩

/-- The way back. -/
def CaseRun.inverse (r : CaseRun) : CaseRun :=
  ⟨(r.first + r.offset).toNat, (r.last + r.offset).toNat, r.step, -r.offset⟩

/-- Pairs of characters that are converted to each other, from lower to upper case. -/
def pairRuns : List CaseRun :=
  runsOf
    "dTZBcLeXWBcLYGBcLHABjICbUCBbYECBHOCBRbSCBbVECBGABpADCCBFABBEABBGABBDABhMEABBBABmOBABevxYDABkAD
     ECBHABBFABBDABBECCBFABBEABBCABeIHABDDABDDABDCOCBPABgBCQCBUABDCABBEbMCBbQQCBZABBDBBbfzYDABBFICB
     JABbfxMBABbfxGBABbfxKBABqDBABpVCBBpTDABpNCABpPBABevfIEABpTBABevfACABpXBABevhEBABevcIBABeveMCAB
     qBBABqFBABeveMBABbfuKBABeveGDABqFCABbfuWBABqJDABqLIABbftEDABqTCABeveKBABqTEABevcMBABqTBABfHBBB
     qRCABfLGABqVLABevaWBABevaQiDCCBGABBECBkAbXABcXBCBcVEQBcLSIBcLJABeXBBBeVKABPCWCBZABOBABiXFABBDA
     BBcBbFBcLbGPBgDRbGCBbQcACBcDMCBNABbDCdQCBfObLBdReiPbQBixKbTCBixKbdJFBPdgKABBjFABeanWEABlhKRABe
     arWeLfSCBgEdQCBdRHBQQFBQQHBQQHBQQFBQRGCQPHBQQBBfSCDBgQEBBhSCBBjWCBBiQCBBjScABBQbGBBQQBBQFABOnX
     ABcDbIPBbFUABBbgMZBbZcuQbVBdRbXABBEABbfyJBABbfyDCECBLABBDABBLdUCBeDCCBHABBNbLBvmTbNABvmTGABvmT
     btwEbSCBcMbACBgGMCBQcICBcTCCBFICBNABBFCCBDABdSDSCBbEOCBTCCBFOCBbPABBbhDABctJbDdBBekzNbftHZBcLb
     wHbNBdBgUbJBdBhJKBcZMOBcZQGBcZIBBcZcrDbYBeXgUVBcLehKbFBcLbglCbFBcLdNYBcBbujFbHBcP"

/-- Single-character conversions to upper case. -/
def upperRuns : List CaseRun :=
  pairRuns ++ runsOf
    "gZABcfEeUABrVdAABxBcSABBDABBDABBbNABBnBABgMeVABcJOABeTBABeJEABdPBABeDbAABgPBABgDEABhJjhRABsnBB
     ABsmZBABsmHBBBsmDCABsmFBABslRBABshLBABeaiUuLABeNlFABviF"

/-- Conversions to upper case that yield several characters. A Greek vowel with an
iota below it becomes the vowel and the iota. -/
def upperExpansions : List (Nat × List Nat) :=
  (List.range 48).map (fun i => (8064 + i, [[7944, 7976, 8040].getD (i / 16) 0 + i % 8, 921])) ++
  (readGroups
    "iPdFdFAeCbaYdAAgLcWbeAAqAbjLbdWbdPbGbjXbdWbdPsDbzHcaKAjmTcUbfLABdGbdWABdJbdYABdLbdYABcNbbAAhAb
     jXbeHACbjXbeHbdOCbjXbeHbdPCbjXbeHbgCdOmaKbjLABbjDbjLABbiSbjLACbjDbgCABbjDbgCbjLFbjDbjLAGmbAbjL
     ABbjJbjLABbiVbjLACbjJbgCABbjJbgCbjLFbjJbjLAGbjLbdWbdOBbjLbdWbdPDbjLbgCABbjLbdWbgCLbjXbdWbdOBbj
     XbdWbdPBbjTbeHACbjXbgCABbjXbdWbgCLmcWbjLABbkBbjLABbjBbjLACbkBbgCABbkBbgCbjLFbkBbjLAdeyMcScSABc
     ScVABcScYABcScScVBcScScYBdFdGABdFdGANbzWbzYABbzWbzHABbzWbzNABcaGbzYABbzWbzPA").map
    fun (c, x, y, z) => (c, [x, y, z].filter (· ≠ 0))

/-- Single-character conversions to lower case. -/
def lowerRuns : List CaseRun :=
  pairRuns.map .inverse ++ runsOf
    "rLABCDABCDABCbNABCtUABePkcOABwnTjAHBPQHBPQHBPUABRQABRbWABRlMABwgFEAByuVBABylN"

/-- Conversions to lower case that yield several characters. -/
def lowerExpansions : List (Nat × List Nat) := [(304, [105, 775])]

/-- Characters with a case, as ascending bounds of half-open ranges. -/
def casedBounds : Array Nat :=
  boundsOf
    "cNbAGbAbVBKBEBFXBbFBhNBEEiACbJHCbEFdSBbQECCCEBBGBBDBBBUBdFBfJIgKBbMJbPefFbMBBFBCbRBEzWdICGdfUL
     FbRCDcMhKcMkSCGCbMCGCIBBBBBBBbFCcBBHBBDDBHDECGENFDBHeMBNBQNdXBEBCKBBDFGBBBBBBEBGEBCEFFEBRbGDCb
     fLcAcrUiVGEDCMbMBBFBbtwCbUSbEfCdYDEBcZUGBDbfPbRBOGdCbeaIHMFbnTbAGbAbtTdCdSbKEbKeMLBPBHBCBLBPBH
     BCrJBCDBbQBJbuZbZNbZdPWKWefIcMbgiQcMbGZCZbmiEdHBcTBCCBCCCEBMBBBHBcNBECIBHBbCBEBFBBDHBnCCZBZBbF
     BZBbFBZBbFBZBbFBZBIcsYKBUGGkBcKdgKcQdaAbAGbAGbA"

/-- Characters skipped when looking for a cased neighbour, as ascending bounds of half-open
ranges. -/
def caseIgnorableBounds : Array Nat :=
  boundsOf
    "bNBGBLBbJBBBcTBEBBBEBCCtJhKECEBJCBBjRHhZBFBbXbTBBBCBCBBbSBLGKLBBbJBKVQBdXIBKBEbHBBBbEbBdNLcGLE
     BCBYYbRDbSBHCFJbPcGcDBBBEIEBDHKCNBPBcGBEEIBUCbABCCcFBECECCDDBbECDBLCcFBEFBCEBUCWGBBcGBCBBEIBHC
     LCbEBcJBMBbYBDBcDBBDFDBEHCLCbDBcGBCBGBFCUCbCCcFCEEIBUCbDBcUBHDBBdMBCHLJdUBCJJBBHcVCbBBBBBBcDOB
     FBCFLBbKJBdYEBGBCCCZCEDQENBCCGBPBdQBxKDbkKDbDCbECbECcMCBHIBCLDBFBbTFbZBcNCbIBeODECJBGDiLCCBcGB
     BHBBBBCIGKCBbNBIbUCMUEbWBBFBBFBbOJMCbGECCBDcEBBCDBBDcGICCcMGdEDBNBHEBGBDCbYcLNBbIdXrDBBDLDNDND
     NCMFICKBCBCFbXFBKBBNBQNbZbHejRCeJDeVBPBdSbGbVBsBBbKEDFFBdPGdPDbqbUBbwCGkKBdUEBKBBbCEdCCObIdABX
     DdYEDCIBDBEBZCFBfVCbASNBbMIZLbUDbWBCECCRBVCcOGCCCCMBIBbJBLBbZBBDCCFCBBbBBOCFCBBdWFJDeRBCBEBbdz
     SBfRRwBQDBMQbIBCBgNBHBGBLBbJBBBbVBbTCcPBVDtTBiSBfTFbnPGBbQBJwKDBCFEbODEBgJCwBEbMBbAFBBmDCYBcAG
     cSLbXEeTBcCPbPBCCKDbXECCCBEBKBbYDbKFBIcKBMCcAJKECBdRDCBBCGBCBgBBDIVCcFCDBbLHDFcSGNBBBBBOCdHICD
     BBXBdGGBBECBCjEEGCBCbBCdHICBBCeCBBBCGBBdXBBBCEBFjZJBCjWCBBEBfOECCEBbGKbOGCEIBJGCDbUNBChQBBDBBh
     THBGBBdEWCHBCBCeSGDBBCBHBBcUCDBBBcNBkVCLCcAFFBBBXBhxDRGPqyYMDDdsAFcHHJEtODbOCsOBcLRcMCBCNCygAE
     BHBCeuGCBEgyUbUCXuYDJQCHbEEfSDcyDcDEbYIBOBWFBPcaIHBRCHBCBFFcKbHBgEOoEBcJEtNFjUCjJBCBHCFBJBrWHe
     FIebFFbsxxPBbEdSeYjG"

end TypeFlow.Text
