import TypeFlow.Text.Ranges

/-!
# Characters that print as themselves

A character above the ASCII range is hidden when it is a control, format, private-use, surrogate or
unassigned character, a space or line separator, an invisible filler, or a mark that extends the
character before it. A letter is no mark, even if it joins the character before it. Hidden
characters are written by number in quoted text.
-/

namespace TypeFlow.Text

/-- The hidden characters above ASCII, as ascending bounds of half-open ranges. -/
def hiddenBounds : Array Nat :=
  boundsOf
    "eXbIMBwWeIICGEHBBBUBiQHgKBbMCbYCDbUBBBCBCBJbBEGRKLBBbUVQBdXIBGCCBEbGCBBbEbDdLLBObRJHDYEBJBDBHP
     BZFBBLFbGQbQcFcDBBBEIEBDHKCbDBCBICCCWBHBBDEDBBCGCCCBBNCBDEYFBBGECCWBHBCBCBCEDYEBBHKCDBBMBBJBDB
     WBHBCBFDEIBBCDBPCEMHBICBICCCWBHBCBFDBCBGCCCPCBDESLBBGDDBEDCBBBCDCDDDMFBBCDDBDDBVVGDBIBDBXBQDBD
     ETDBCCCEKHKBLBDBXBKBFDCCBBCXDBCEKBDOLBDBbPCBBCFDBDBCEDBKEbACCBSDYBJBBCHJCGHHKCDMbWBCLIINbLCBBB
     FBYBBBKBCJBCFBBJKCEbGYCbBBBBBBOBbKSBFBCFbXIBGBNbLbTEBGBCCCZCEDQENBCCGBPBbOBBFBCfNCiYBECHBBBECb
     PBECbHBECHBBBECPBcFBECcPFbDDbAGdICGCyQBbCDdLHSNTDCJSONBDPcACBHIBCLJDKGKGLFKGdLHFCbIBBFcSKbFEEC
     DECBGHBDbQCFLbSEbAGLDcFCCDcEBBJBBCIGNKGKGOdIbWKEDIBbDJMCbGECGcEBBCDBBNbWICFPDcKFbRCLLBNBHEBGBD
     CBFhKcMkSCGCbMCGCIBBBBBBBbFCcBBPBOCGBTCDBJRYIbVRCCbBBNDbIcKfKEzQWLVcrSCoNDCFbTBBFBCcEHCPXJHBHB
     HBHBHBHBHBHbHdQbIbABdLMiGbAQBbPGQBdIEdXFbRBbZBbQBdIJbWBbriRDcDJnKUbVEBKbGCdCCGIiNURBDBEBZCFEKG
     cEIcQKMYNBbMIZLBMbEGbWBCECCCBNBLEHBZBbPGCCCLDBIBBCKCbGBbZBBDCCFCBBBYRCILGCGCGJHBHBcIEeNBCBEDKG
     qnSMXEbXmnCoCCeCbMHMFFBBYBFBBBCBCBzAbGQQKWbJBTBEEFBfFEgDBbEDGCGCGCDDHBHNCCMBbABTBCBPCObIeTFDEb
     TDdKBNDBbVbTfBbDDbXQbBEbKJbEFbMKbEBbLEObQgCCKGbKEbKEbOIcALMBPBHBCBLBPBHBCDcAMlZJWKIYGBbQBJcRGC
     BBbSBCDBCXBcUIJbWTBCFbHDbBFbBbMcEEUCbVPEBDBbDKJHJHcMbGbLGMJcCDbDCbBFbAHEMHdCcVcDbZNbZHbQMKGbMI
     YICiAbFBbQDBCCQGIJbNbOIWLJWSEEbMbCUXJBBcCPHEbEBCCBMbXECCCBEOZHKJbKFBJSIbJBDLcAJBBIECBQBULSBbCD
     CEGBCcLHBBBEBPBLGbVBDNKICBICCCWBHBCBFDBBBBECCCCDBMHbCKBBCBBbMBBBCPBBCDBBDBCbNcEICDBBVBBBDbEbWB
     CGBBCBBCBCEIKgKbVBCGECBCbBbKbZICBBCELKGNTbRBBBCICGKGUbCbBDBBCEBJXhDbVJBCBdWdFMICBCIBCBYBFBCGEB
     DJKcSICbQIEBEbBBKbOGCEIJBGCDbUNBCJNcVHKdJBDBBBdKbIOKGJBbMOBBGKbDDbGZBHBCBcXHBCBbMVBJKGGBCBbLEC
     BBBBHKGbSEKjMTCEJPBbKICDXdIBPbYNbjNdYeHBFLhOdxKdVNbpGRGZfxRFwLkdDbEMDDKcoSvXHbFBKEdDBKGbEHBKbW
     HPKKBHBVFTqQcGhQdNFZCZbScXFcELNcMEOFJkxYbPbGdTeLmwREBHBCBlFPBbDDCBOEIpGdkUeDFNDJHKCBCBfvKjTDqU
     GXPRdReMcIjMKbNCcIFDWCHbEEcJVcODBeSUMUMdJJZfFdHBcTBCCBCCCEBMBBBHBcNBECIBHBbCBEBFBBDHBnCClGCvQc
     DEbYIBOBHbrWbFGGkBcKfQbTKHCKECmIbESbSEKFBrWbCEKiGbECLEBhKbFBDBCBHCFJCiQHBEBCBPBhPCJbWcQHBEKECb
     eFcQcYcJhMEBbBBCBBCBBKBEBBBBGBEBBBBBBDBCBBCBBBBBBBBBBCBBCEBHBEBEBBBKBRFDBFBRcACkKbSEdWMPCPBPBb
     LKgScEbDNbSEJHCOGfYblXDRDNDiKGMEBPMEcEIKGbOIbECMECOJbNnGIOCNDLDcFBBEQCMEKHfRBdZbnPclfCbGgmOCio
     CClbLPxYdqWuWcfYhhZFmoObzljY"

/-- Whether a character is written by number. In ASCII these are the control characters. -/
def isHidden (c : Char) : Bool :=
  if c.toNat < 0x7f then c.toNat < 0x20 else inRanges hiddenBounds c.toNat

end TypeFlow.Text
