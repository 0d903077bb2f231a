import Mathlib.Tactic.Common

namespace Rippled.Tx

inductive TELcodes
  | telLOCAL_ERROR
  | telBAD_DOMAIN
  | telBAD_PATH_COUNT
  | telBAD_PUBLIC_KEY
  | telFAILED_PROCESSING
  | telINSUF_FEE_P
  | telNO_DST_PARTIAL
  | telCAN_NOT_QUEUE
  | telCAN_NOT_QUEUE_BALANCE
  | telCAN_NOT_QUEUE_BLOCKS
  | telCAN_NOT_QUEUE_BLOCKED
  | telCAN_NOT_QUEUE_FEE
  | telCAN_NOT_QUEUE_FULL
deriving DecidableEq

inductive TEMcodes
  | temMALFORMED
  | temBAD_AMOUNT
  | temBAD_CURRENCY
  | temBAD_EXPIRATION
  | temBAD_FEE
  | temBAD_ISSUER
  | temBAD_LIMIT
  | temBAD_OFFER
  | temBAD_PATH
  | temBAD_PATH_LOOP
  | temBAD_REGKEY
  | temBAD_SEND_XRP_LIMIT
  | temBAD_SEND_XRP_MAX
  | temBAD_SEND_XRP_NO_DIRECT
  | temBAD_SEND_XRP_PARTIAL
  | temBAD_SEND_XRP_PATHS
  | temBAD_SEQUENCE
  | temBAD_SIGNATURE
  | temBAD_SRC_ACCOUNT
  | temBAD_TRANSFER_RATE
  | temDST_IS_SRC
  | temDST_NEEDED
  | temINVALID
  | temINVALID_FLAG
  | temREDUNDANT
  | temRIPPLE_EMPTY
  | temDISABLED
  | temBAD_SIGNER
  | temBAD_QUORUM
  | temBAD_WEIGHT
  | temBAD_TICK_SIZE
  | temINVALID_ACCOUNT_ID
  | temCANNOT_PREAUTH_SELF
  | temINVALID_COUNT
  | temUNCERTAIN
  | temUNKNOWN
  | temSEQ_AND_TICKET
deriving DecidableEq

inductive TEFcodes
  | tefFAILURE
  | tefALREADY
  | tefBAD_ADD_AUTH
  | tefBAD_AUTH
  | tefBAD_LEDGER
  | tefCREATED
  | tefEXCEPTION
  | tefINTERNAL
  | tefNO_AUTH_REQUIRED
  | tefPAST_SEQ
  | tefWRONG_PRIOR
  | tefMASTER_DISABLED
  | tefMAX_LEDGER
  | tefBAD_SIGNATURE
  | tefBAD_QUORUM
  | tefNOT_MULTI_SIGNING
  | tefBAD_AUTH_MASTER
  | tefINVARIANT_FAILED
  | tefTOO_BIG
  | tefNO_TICKET
deriving DecidableEq

inductive TERcodes
  | terRETRY
  | terFUNDS_SPENT
  | terINSUF_FEE_B
  | terNO_ACCOUNT
  | terNO_AUTH
  | terNO_LINE
  | terOWNERS
  | terPRE_SEQ
  | terLAST
  | terNO_RIPPLE
  | terQUEUED
  | terPRE_TICKET
deriving DecidableEq

inductive TECcodes
  | tecCLAIM
  | tecPATH_PARTIAL
  | tecUNFUNDED_ADD
  | tecUNFUNDED_OFFER
  | tecUNFUNDED_PAYMENT
  | tecFAILED_PROCESSING
  | tecDIR_FULL
  | tecINSUF_RESERVE_LINE
  | tecINSUF_RESERVE_OFFER
  | tecNO_DST
  | tecNO_DST_INSUF_XRP
  | tecNO_LINE_INSUF_RESERVE
  | tecNO_LINE_REDUNDANT
  | tecPATH_DRY
  | tecUNFUNDED
  | tecNO_ALTERNATIVE_KEY
  | tecNO_REGULAR_KEY
  | tecOWNERS
  | tecNO_ISSUER
  | tecNO_AUTH
  | tecNO_LINE
  | tecINSUFF_FEE
  | tecFROZEN
  | tecNO_TARGET
  | tecNO_PERMISSION
  | tecNO_ENTRY
  | tecINSUFFICIENT_RESERVE
  | tecNEED_MASTER_KEY
  | tecDST_TAG_NEEDED
  | tecINTERNAL
  | tecOVERSIZE
  | tecCRYPTOCONDITION_ERROR
  | tecINVARIANT_FAILED
  | tecEXPIRED
  | tecDUPLICATE
  | tecKILLED
  | tecHAS_OBLIGATIONS
  | tecTOO_SOON
  | tecHOOK_ERROR
deriving DecidableEq

inductive TER
  | tel (code : TELcodes)
  | tem (code : TEMcodes)
  | tef (code : TEFcodes)
  | ter (code : TERcodes)
  | tesSUCCESS
  | tec (code : TECcodes)
deriving DecidableEq

def isTesSuccess : TER → Bool
  | .tesSUCCESS => true
  | _ => false

def isTecClaim : TER → Bool
  | .tec _ => true
  | _ => false

def isTefFailure : TER → Bool
  | .tef _ => true
  | _ => false

def isTemMalformed : TER → Bool
  | .tem _ => true
  | _ => false

def isTelLocal : TER → Bool
  | .tel _ => true
  | _ => false

end Rippled.Tx
